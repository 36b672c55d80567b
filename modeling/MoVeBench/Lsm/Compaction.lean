/-
MoVeBench/Lsm/Compaction.lean

Flushes and merges leave the database as it is.

A snapshot is a stack of levels, the newest first, under the in-memory trees.  The
steps are the flushes of `sortedNewToplevel` and the merges of `sortedWork`, each
stopped after any number of records; `compaction_keeps_visible` says that no step
changes the visible value of any key.
-/
import MoVeBench.Lsm.Levels
import MoVeBench.Lib.Runs

namespace MoVeBench

namespace Lsm

open Run

variable {κ V : Type} [LinearOrder κ]

/-! ### A flush -/

/-- The level below that `sortedNewToplevel` merges into the new one (`pDel`). -/
def freelistTop : List (Level κ V) → Option (Run κ V)
  | .run lhs true :: _ => some lhs
  | _ => none

/-- The records of the new level: the trees, the level `pDel` if there is one, and the
separators of the next level. -/
def newToplevelRun (trees : Inputs κ V) (pBtCsr : Option (Run κ V)) (levels : List (Level κ V))
    (bPtr : κ → Bool) : Run κ V :=
  let inputs := trees ++ (freelistTop levels).toList ++ pBtCsr.toList
  (mergeWorkerSteps bPtr levels.isEmpty (size inputs)
    ⟨[], multiCursorAdvance levels.isEmpty none inputs⟩).lhs

/-- `sortedNewToplevel`: the trees go to a new level; there is none if nothing is in
it, `bAny` telling if a free-list entry is. -/
def sortedNewToplevel (trees : Inputs κ V) (pBtCsr : Option (Run κ V)) (bFreeOnly bAny : Bool)
    (levels : List (Level κ V)) (bPtr : κ → Bool) : List (Level κ V) :=
  let lhs := newToplevelRun trees pBtCsr levels bPtr
  if lhs.isEmpty && !bAny then levels
  else .run lhs bFreeOnly :: if (freelistTop levels).isSome then levels.tail else levels

/-! ### The levels of a snapshot -/

/-- The levels hide what is under them as their records say; of the last one only the
values matter. -/
def LevelsOk : List (Level κ V) → Prop
  | [] => True
  | lvl :: levels => (lvl.Exact ∨ levels = [] ∧ lvl.Values) ∧ lvl.FreeOk ∧ LevelsOk levels

section Levels

variable {above group below levels : List (Level κ V)} {lhs : Run κ V} {rhs : Inputs κ V}
  {pBtCsr : Option (Run κ V)} {bFreeOnly bIgnoreDelete : Bool} {bPtr : κ → Bool} {nStep : ℕ}
  {free : FreelistWork} {mw : MergeWorker κ V} {k : κ}

theorem viewLevels_append : viewLevels (above ++ below) k =
    (viewLevels above k).or (viewLevels below k) := List.findSome?_append

theorem levelsOk_append (hok : LevelsOk (above ++ below)) :
    (below ≠ [] → ∀ lvl ∈ above, lvl.Exact) ∧ (∀ lvl ∈ above, lvl.FreeOk) ∧ LevelsOk below := by
  induction above with
  | nil => exact ⟨fun _ => nofun, nofun, hok⟩
  | cons lvl above ih =>
      obtain ⟨hlvl, hfree, hrest⟩ := hok
      obtain ⟨hexact, hfrees, hbelow⟩ := ih hrest
      refine ⟨fun hne => ?_, ?_, hbelow⟩
      · rintro lvl' hl
        rcases List.mem_cons.mp hl with rfl | hl
        · rcases hlvl with hlvl | ⟨hnil, -⟩
          · exact hlvl
          · exact absurd (List.append_eq_nil_iff.mp hnil).2 hne
        · exact hexact hne lvl' hl
      · rintro lvl' hl
        rcases List.mem_cons.mp hl with rfl | hl
        · exact hfree
        · exact hfrees lvl' hl

theorem LevelsOk.append (habove : ∀ lvl ∈ above, lvl.Exact ∧ lvl.FreeOk) (hbelow : LevelsOk below) :
    LevelsOk (above ++ below) := by
  induction above with
  | nil => exact hbelow
  | cons lvl above ih =>
      obtain ⟨hexact, hfree⟩ := habove lvl List.mem_cons_self
      exact ⟨.inl hexact, hfree, ih fun lvl hl => habove lvl (List.mem_cons_of_mem _ hl)⟩

/-- A level with free-list entries alone says nothing. -/
theorem viewLevels_freelistRun (hfree : ∀ lvl ∈ above, lvl.FreeOk)
    (hrun : above.all Level.freelistRun = true) : viewLevels above k = none := by
  unfold viewLevels
  rw [List.findSome?_eq_none_iff]
  intro lvl hl
  have hlvl := List.all_eq_true.mp hrun lvl hl
  cases lvl with
  | run lhs bFreeOnly =>
      rw [show lhs = [] from hfree _ hl hlvl]
      rfl
  | merging lhs rhs pBtCsr splitKey bFreeOnly => cases hlvl

omit [LinearOrder κ] in
/-- Its segment is empty. -/
theorem segments_freelistRun (hfree : ∀ lvl ∈ above, lvl.FreeOk)
    (hrun : above.all Level.freelistRun = true) :
    ∀ l ∈ above.filterMap Level.segment?, l = [] := by
  intro l hl
  obtain ⟨lvl, hlvl, hseg⟩ := List.mem_filterMap.mp hl
  have hlvl' := List.all_eq_true.mp hrun lvl hlvl
  cases lvl with
  | run lhs bFreeOnly =>
      cases hseg
      exact hfree _ hlvl hlvl'
  | merging lhs rhs pBtCsr splitKey bFreeOnly => cases hseg

/-! #### The end of a merge -/

theorem mergeWorkerSteps_eof (h : multiCursorMin bIgnoreDelete mw.inputs = none) (n : ℕ) :
    mergeWorkerSteps bPtr bIgnoreDelete n mw = mw := by
  cases n with
  | zero => rfl
  | succ n => rw [mergeWorkerSteps, h]

variable (bIgnoreDelete) in
theorem multiCursorMin_empty {inputs : Inputs κ V} (h : ∀ l ∈ inputs, l = []) :
    multiCursorMin bIgnoreDelete inputs = none := by
  rcases hp : multiCursorMin bIgnoreDelete inputs with - | p
  · rfl
  · have hs := multiCursorMin_spec hp
    have hcur := h (p.cur :: p.rest) (by rw [hs.eq]; simp)
    cases hcur

/-- A merge is at its end after as many steps as there are records. -/
theorem mergeWorkerSteps_done (n : ℕ) (hn : size mw.inputs ≤ n) :
    multiCursorMin bIgnoreDelete (mergeWorkerSteps bPtr bIgnoreDelete n mw).inputs = none := by
  induction n generalizing mw with
  | zero =>
      rcases hp : multiCursorMin bIgnoreDelete mw.inputs with - | p
      · exact hp
      · exact absurd (size_next hp) (by rw [Nat.le_zero.mp hn]; exact Nat.not_lt_zero _)
  | succ n ih =>
      rw [mergeWorkerSteps]
      rcases hp : multiCursorMin bIgnoreDelete mw.inputs with - | p
      · exact hp
      · simp only
        refine ih ?_
        rw [multiCursorAdvance_next hp]
        have hle := size_multiCursorAdvance bIgnoreDelete (dropCur bIgnoreDelete mw.inputs p)
        exact Nat.lt_succ_iff.mp ((hle.trans_lt (size_dropCur hp)).trans_le hn)

theorem sortedWorkLevel_eof {nRight : ℕ} (h : multiCursorMin bIgnoreDelete mw.inputs = none) :
    sortedWorkLevel mw bIgnoreDelete nRight bFreeOnly { free with bDone := true } =
      if mw.lhs.isEmpty && !free.bAny then none else some (.run mw.lhs bFreeOnly) := by
  unfold sortedWorkLevel
  rw [h]
  rfl

variable (below lhs rhs pBtCsr bFreeOnly bPtr nStep free) in
/-- The levels above stay, or they hold nothing and go. -/
theorem sortedWork_eq (hfree : ∀ lvl ∈ above, lvl.FreeOk)
    (hmw : mw = mergeWorkerSteps bPtr (below.isEmpty && pBtCsr.isNone) nStep
      (mergeWorkerInit lhs rhs pBtCsr (!below.isEmpty))) :
    ∃ above' free', (above' = above ∨ above' = [] ∧ above.all Level.freelistRun = true) ∧
      sortedWork above lhs rhs pBtCsr bFreeOnly below bPtr nStep free =
        above' ++ (sortedWorkLevel mw (below.isEmpty && pBtCsr.isNone) rhs.length bFreeOnly
          free').toList ++ below := by
  unfold sortedWork
  simp only [← hmw]
  split_ifs with huse
  · simp only [Bool.and_eq_true, Option.isNone_iff_eq_none] at huse
    obtain ⟨⟨-, heof⟩, hrun⟩ := huse
    refine ⟨[], { free with bDone := true }, .inr ⟨rfl, hrun⟩, ?_⟩
    have heof' : multiCursorMin (below.isEmpty && pBtCsr.isNone)
        (mergeInsertFreelistSegments above mw).inputs = none := by
      refine multiCursorMin_empty _ fun l hl => ?_
      rcases List.mem_append.mp hl with hl | hl
      · exact segments_freelistRun hfree hrun l hl
      · exact multiCursorMin_none heof l hl
    rw [mergeWorkerSteps_eof heof', sortedWorkLevel_eof heof', sortedWorkLevel_eof heof]
    rfl
  · exact ⟨above, free, .inl rfl, rfl⟩

variable (below bIgnoreDelete bPtr nStep free) in
/-- A merge of free-list-only levels has no user records. -/
theorem sortedWorkLevel_free (nRight : ℕ) (hmw : mw = mergeWorkerSteps bPtr bIgnoreDelete nStep
      (mergeWorkerInit lhs rhs pBtCsr (!below.isEmpty)))
    (hfree : bFreeOnly = true → lhs = [] ∧ ∀ l ∈ rhs ++ pBtCsr.toList, l = []) :
    ∀ lvl ∈ sortedWorkLevel mw bIgnoreDelete nRight bFreeOnly free, lvl.FreeOk := by
  have hmw' : bFreeOnly = true → mw.lhs = [] ∧ ∀ l ∈ mw.inputs, l = [] := by
    intro hf
    obtain ⟨hlhs, hempty⟩ := hfree hf
    have hin : ∀ l ∈ multiCursorAddRhs (!below.isEmpty && pBtCsr.isNone) rhs ++ pBtCsr.toList,
        l = [] := by
      intro l hl
      rcases List.mem_append.mp hl with hl | hl
      · obtain ⟨m, hm, hlm⟩ := exists_of_mem_right
          (multiCursorAddRhs_induct (P := fun l m => m ⊆ l) (fun _ _ _ h => h)
            fun _ _ => List.filter_sublist.subset) hl
        rw [hempty m (List.mem_append_left _ hm)] at hlm
        exact List.subset_nil.mp hlm
      · exact hempty l (List.mem_append_right _ hl)
    have hinit : mergeWorkerInit lhs rhs pBtCsr (!below.isEmpty) =
        ⟨lhs, multiCursorAddRhs (!below.isEmpty && pBtCsr.isNone) rhs ++ pBtCsr.toList⟩ := by
      unfold mergeWorkerInit
      rw [multiCursorAdvance_eof (multiCursorMin_empty _ hin)]
    rw [hmw, hinit, mergeWorkerSteps_eof (multiCursorMin_empty _ hin)]
    exact ⟨hlhs, hin⟩
  have hmerging : ∀ splitKey, (Level.merging mw.lhs (mw.inputs.take nRight)
      (mw.inputs.drop nRight).head? splitKey bFreeOnly).FreeOk := by
    intro splitKey hf
    obtain ⟨hlhs, hempty⟩ := hmw' hf
    refine ⟨hlhs, fun l hl => ?_⟩
    rcases List.mem_append.mp hl with hl | hl
    · exact hempty l (List.mem_of_mem_take hl)
    · exact hempty l (List.mem_of_mem_drop (List.mem_of_mem_head? (Option.mem_toList.mp hl)))
  unfold sortedWorkLevel
  rcases multiCursorMin bIgnoreDelete mw.inputs with - | p
  · simp only
    split_ifs
    · rintro lvl ⟨⟩
      exact hmerging _
    · exact nofun
    · rintro lvl ⟨⟩
      exact fun hf => (hmw' hf).1
  · rintro lvl ⟨⟩
    exact hmerging _

/-! #### A merge among the levels -/

theorem mergeWorkerInit_inputs (pBtCsr : Option (Run κ V)) (bNext : Bool) {P : Inputs κ V → Prop}
    (h : P (multiCursorAddRhs (bNext && pBtCsr.isNone) rhs ++ pBtCsr.toList))
    (hdrop : ∀ inputs p, P inputs → P (dropCur (!bNext && pBtCsr.isNone) inputs p)) :
    P (mergeWorkerSteps bPtr (!bNext && pBtCsr.isNone) nStep
      (mergeWorkerInit lhs rhs pBtCsr bNext)).inputs :=
  mergeWorkerSteps_inputs nStep
    (multiCursorAdvance_induct h fun inputs p h _ _ => hdrop inputs p h).1 hdrop

variable (bPtr nStep) in
/-- A merge that keeps deletes, stopped after some records. -/
theorem mergeWorker_merging (hbt : ∀ l ∈ pBtCsr, SepRun l)
    (hig : (below.isEmpty && pBtCsr.isNone) = false)
    (hexact : ∀ bRead, (bRead = true → pBtCsr = none) →
      Merging (viewLevels group) ⟨lhs, multiCursorAddRhs bRead rhs ++ pBtCsr.toList⟩)
    (hmw : mw = mergeWorkerSteps bPtr false nStep
      (mergeWorkerInit lhs rhs pBtCsr (!below.isEmpty))) :
    Merging (viewLevels group) mw ∧ SepInput rhs.length mw.inputs := by
  have hig' : (!!below.isEmpty && pBtCsr.isNone) = false := by rwa [Bool.not_not]
  have hread : (!below.isEmpty && pBtCsr.isNone) = true → pBtCsr = none := fun h =>
    Option.isNone_iff_eq_none.mp (Bool.and_eq_true_iff.mp h).2
  have hsep : SepInput rhs.length mw.inputs := by
    rw [hmw, ← hig']
    refine mergeWorkerInit_inputs pBtCsr _ ⟨?_, fun l hl => ?_⟩ fun inputs p h => h.dropCur p
    · rw [List.length_append, length_visited]
      refine Nat.add_le_add_left ?_ _
      cases pBtCsr <;> simp
    · rw [List.drop_append_of_le_length (length_visited rhs).ge,
        List.drop_of_length_le (length_visited rhs).le, List.nil_append] at hl
      exact hbt l (Option.mem_toList.mp hl)
  obtain ⟨hadv, hvisit⟩ := (hexact (!below.isEmpty && pBtCsr.isNone) hread).advance
  obtain ⟨hm, -⟩ := hadv.steps bPtr nStep hvisit
  have hinit : mergeWorkerInit lhs rhs pBtCsr (!below.isEmpty) =
      ⟨lhs, multiCursorAdvance false none
        (multiCursorAddRhs (!below.isEmpty && pBtCsr.isNone) rhs ++ pBtCsr.toList)⟩ := by
    unfold mergeWorkerInit
    rw [hig']
  rw [← hinit, ← hmw] at hm
  exact ⟨hm, hsep⟩

variable (bPtr nStep) in
/-- A merge that drops deletes, stopped after some records. -/
theorem mergeWorker_dropping
    (hvalues : Dropping (fun k => (viewLevels group k).join) ⟨lhs, rhs.map dropSeparators⟩)
    (hmw : mw = mergeWorkerSteps bPtr true nStep (mergeWorkerInit lhs rhs none false)) :
    Dropping (fun k => (viewLevels group k).join) mw ∧ Visiting true mw.inputs ∧
      mw.inputs.length ≤ rhs.length := by
  obtain ⟨hadv, hvisit⟩ := hvalues.advance
  obtain ⟨hm, hv⟩ := hadv.steps bPtr nStep hvisit
  have hinit : mergeWorkerInit lhs rhs none false =
      ⟨lhs, multiCursorAdvance true none (rhs.map dropSeparators)⟩ := by
    show MergeWorker.mk lhs (multiCursorAdvance true none
      (multiCursorAddRhs false rhs ++ [])) = _
    rw [List.append_nil, multiCursorAddRhs_false]
  rw [← hinit, ← hmw] at hm hv
  refine ⟨hm, hv, ?_⟩
  rw [hmw]
  refine mergeWorkerInit_inputs none false
    (P := fun inputs : Inputs κ V => inputs.length ≤ rhs.length) ?_ fun inputs p h => ?_
  · rw [List.length_append, length_visited]
    exact le_rfl
  · rw [dropCur, List.length_map]
    exact h

variable (bFreeOnly bPtr nStep free) in
/-- What replaces the levels that are merged: a level that says the same, or has the
same values if there is no level below. -/
theorem sortedWorkLevel_spec (hbt : ∀ l ∈ pBtCsr, SepRun l)
    (hexact : (below.isEmpty && pBtCsr.isNone) = false →
      ∀ bRead, (bRead = true → pBtCsr = none) →
        Merging (viewLevels group) ⟨lhs, multiCursorAddRhs bRead rhs ++ pBtCsr.toList⟩)
    (hvalues : below = [] → pBtCsr = none →
      Dropping (fun k => (viewLevels group k).join) ⟨lhs, rhs.map dropSeparators⟩)
    (hmw : mw = mergeWorkerSteps bPtr (below.isEmpty && pBtCsr.isNone) nStep
      (mergeWorkerInit lhs rhs pBtCsr (!below.isEmpty)))
    {new : List (Level κ V)} (hnew : new = (sortedWorkLevel mw (below.isEmpty && pBtCsr.isNone)
      rhs.length bFreeOnly free).toList) :
    ((∀ lvl ∈ new, lvl.Exact) ∧ ∀ k, viewLevels new k = viewLevels group k) ∨
      below = [] ∧ (∀ lvl ∈ new, lvl.Values) ∧
        ∀ k, (viewLevels new k).join = (viewLevels group k).join := by
  have hmem : ∀ lvl ∈ new, lvl ∈ sortedWorkLevel mw (below.isEmpty && pBtCsr.isNone)
      rhs.length bFreeOnly free := fun lvl hl => Option.mem_toList.mp (hnew ▸ hl)
  cases hig : below.isEmpty && pBtCsr.isNone with
  | false =>
      rw [hig] at hmw hnew hmem
      obtain ⟨hm, hsep⟩ := mergeWorker_merging bPtr nStep hbt hig (hexact hig) hmw
      obtain ⟨hok, hview⟩ := sortedWorkLevel_exact bFreeOnly free hm hsep
      rw [← hnew] at hview
      exact .inl ⟨fun lvl hl => hok lvl (hmem lvl hl), hview⟩
  | true =>
      obtain ⟨hempty, hnone⟩ := Bool.and_eq_true_iff.mp hig
      rw [List.isEmpty_iff] at hempty
      rw [Option.isNone_iff_eq_none] at hnone
      subst hempty hnone
      rw [hig] at hmw hnew hmem
      obtain ⟨hm, hv, hlen⟩ := mergeWorker_dropping bPtr nStep (hvalues rfl rfl) hmw
      obtain ⟨hok, hview⟩ := sortedWorkLevel_values bFreeOnly free hm hv hlen
      rw [← hnew] at hview
      exact .inr ⟨rfl, fun lvl hl => hok lvl (hmem lvl hl), hview⟩

/-- Levels of which only the last may say something else, and that no other value. -/
theorem join_or_congr {a b b' : Option (Option V)} (h : b.join = b'.join) :
    (a.or b).join = (a.or b').join := by
  cases a with
  | none => exact h
  | some w => rfl

/-- **A merge keeps the levels sound and their values the same.** -/
theorem sortedWork_spec (hok : LevelsOk (above ++ group ++ below)) (hgroup : group ≠ [])
    (hbt : ∀ l ∈ pBtCsr, SepRun l)
    (hexact : (below.isEmpty && pBtCsr.isNone) = false →
      ∀ bRead, (bRead = true → pBtCsr = none) →
        Merging (viewLevels group) ⟨lhs, multiCursorAddRhs bRead rhs ++ pBtCsr.toList⟩)
    (hvalues : below = [] → pBtCsr = none →
      Dropping (fun k => (viewLevels group k).join) ⟨lhs, rhs.map dropSeparators⟩)
    (hfree : bFreeOnly = true → lhs = [] ∧ ∀ l ∈ rhs ++ pBtCsr.toList, l = []) :
    LevelsOk (sortedWork above lhs rhs pBtCsr bFreeOnly below bPtr nStep free) ∧
      ∀ k, (viewLevels (sortedWork above lhs rhs pBtCsr bFreeOnly below bPtr nStep free) k).join =
        (viewLevels (above ++ group ++ below) k).join := by
  rw [List.append_assoc] at hok
  obtain ⟨haExact, haFree, hgb⟩ := levelsOk_append hok
  obtain ⟨-, -, hb⟩ := levelsOk_append hgb
  have haExact' := haExact (List.append_ne_nil_of_left_ne_nil hgroup _)
  obtain ⟨above', free', habove, heq⟩ := sortedWork_eq below lhs rhs pBtCsr
    bFreeOnly bPtr nStep free haFree rfl
  have hmem : ∀ lvl ∈ above', lvl.Exact ∧ lvl.FreeOk := by
    intro lvl hl
    rcases habove with rfl | ⟨rfl, -⟩
    · exact ⟨haExact' lvl hl, haFree lvl hl⟩
    · cases hl
  -- the free-list segments above have no keys, so merging them hides none
  have hview : ∀ k, viewLevels above' k = viewLevels above k := by
    intro k
    rcases habove with rfl | ⟨rfl, hrun⟩
    · rfl
    · exact (viewLevels_freelistRun haFree hrun).symm
  have hnewFree := sortedWorkLevel_free below (below.isEmpty && pBtCsr.isNone) bPtr nStep free'
    rhs.length rfl hfree
  rw [heq, List.append_assoc]
  rcases sortedWorkLevel_spec bFreeOnly bPtr nStep free' hbt hexact hvalues rfl rfl with
    ⟨hnew, hsame⟩ | ⟨rfl, hnew, hsame⟩
  · -- the new level says what the merged ones said
    refine ⟨.append hmem (.append (fun lvl hl => ⟨hnew lvl hl, ?_⟩) hb), fun k => ?_⟩
    · exact hnewFree lvl (Option.mem_toList.mp hl)
    · rw [viewLevels_append, viewLevels_append, hview, hsame, List.append_assoc,
        viewLevels_append, viewLevels_append]
  · -- it is the last one, and has their values
    refine ⟨.append hmem ?_, fun k => ?_⟩
    · rw [List.append_nil]
      generalize sortedWorkLevel (κ := κ) (V := V) _ _ rhs.length bFreeOnly free' = new
        at hnew hnewFree ⊢
      cases new with
      | none => trivial
      | some lvl =>
          have hmem' := Option.mem_toList.mpr (rfl : lvl ∈ some lvl)
          exact ⟨.inr ⟨rfl, hnew lvl hmem'⟩, hnewFree lvl rfl, trivial⟩
    · rw [List.append_nil, List.append_nil, viewLevels_append, hview, viewLevels_append]
      exact join_or_congr (hsame k)

/-! #### The levels that a merge works on -/

theorem ExactMerge.values {splitKey : Option κ} (h : ExactMerge lhs rhs none splitKey) :
    ValuesMerge lhs rhs none splitKey := by
  have hsplit := h.split
  rw [Option.toList_none, List.append_nil] at hsplit
  exact ⟨fun l hl => ⟨(h.segments l hl).1, (h.segments l hl).2.2⟩,
    fun l hl => (h.segments l (List.dropLast_subset _ hl)).2.1, rfl, ⟨h.sorted, h.bare⟩, hsplit⟩

variable (bPtr nStep free) in
/-- **More of a merge in progress** keeps the values. -/
theorem sortedWork_merging {splitKey : Option κ}
    (hok : LevelsOk (above ++ .merging lhs rhs pBtCsr splitKey bFreeOnly :: below)) :
    LevelsOk (sortedWork above lhs rhs pBtCsr bFreeOnly below bPtr nStep free) ∧
      ∀ k, (viewLevels (sortedWork above lhs rhs pBtCsr bFreeOnly below bPtr nStep free) k).join =
        (viewLevels (above ++ .merging lhs rhs pBtCsr splitKey bFreeOnly :: below) k).join := by
  obtain ⟨-, -, hlvl, hfree, -⟩ := levelsOk_append hok
  have hview : viewLevels [.merging lhs rhs pBtCsr splitKey bFreeOnly] =
      (Level.merging lhs rhs pBtCsr splitKey bFreeOnly).lookup :=
    funext fun k => viewLevels_singleton _ k
  rw [List.append_cons] at hok ⊢
  refine sortedWork_spec hok (List.cons_ne_nil _ _) ?_ (fun hig bRead hread => ?_)
    (fun hnil hnone => ?_) hfree
  · rcases hlvl with hlvl | ⟨-, hlvl⟩
    · exact hlvl.separators
    · rw [hlvl.separators]
      exact nofun
  · rw [hview]
    rcases hlvl with hlvl | ⟨hnil, hlvl⟩
    · exact hlvl.merging hread
    · rw [hnil, hlvl.separators] at hig
      cases hig
  · subst hnone
    simp only [hview]
    rcases hlvl with hlvl | ⟨-, hlvl⟩
    · exact hlvl.values.dropping
    · exact hlvl.dropping

/-- Complete levels, with their `LEVEL_FREELIST_ONLY`. -/
def runLevels (group : List (Run κ V × Bool)) : List (Level κ V) :=
  group.map fun lvl => .run lvl.1 lvl.2

theorem viewLevels_runLevels (group : List (Run κ V × Bool)) :
    viewLevels (runLevels group) = view (group.map Prod.fst) := by
  funext k
  unfold viewLevels view runLevels
  rw [List.findSome?_map, List.findSome?_map]
  rfl

theorem runLevels_values {group : List (Run κ V × Bool)} (hok : LevelsOk (runLevels group)) :
    (∀ l ∈ group.map Prod.fst, ValuesOk l) ∧
      ∀ l ∈ (group.map Prod.fst).dropLast, Matched false l := by
  induction group with
  | nil => exact ⟨nofun, nofun⟩
  | cons lvl group ih =>
      obtain ⟨hlvl, -, hrest⟩ := hok
      obtain ⟨hvalues, hmatched⟩ := ih hrest
      refine ⟨fun l hl => ?_, fun l hl => ?_⟩
      · rcases List.mem_cons.mp hl with rfl | hl
        · rcases hlvl with hlvl | ⟨-, hlvl⟩
          · exact ⟨hlvl.sorted, hlvl.bare⟩
          · exact hlvl
        · exact hvalues l hl
      · cases group with
        | nil => cases hl
        | cons lvl' group =>
            rcases List.mem_cons.mp hl with rfl | hl
            · rcases hlvl with hlvl | ⟨hnil, -⟩
              · exact hlvl.matched
              · cases hnil
            · exact hmatched l hl

variable (bPtr nStep free) in
/-- **A new merge of complete levels** keeps the values. -/
theorem sortedWork_runs {group : List (Run κ V × Bool)} (hgroup : group ≠ [])
    (hok : LevelsOk (above ++ runLevels group ++ below)) (hbt : ∀ l ∈ pBtCsr, SepRun l)
    (hnext : below = [] → pBtCsr = none)
    (hbtFree : group.all Prod.snd = true → ∀ l ∈ pBtCsr, l = []) :
    LevelsOk (sortedWork above [] (group.map Prod.fst) pBtCsr (group.all Prod.snd) below bPtr
        nStep free) ∧
      ∀ k, (viewLevels (sortedWork above [] (group.map Prod.fst) pBtCsr (group.all Prod.snd) below
          bPtr nStep free) k).join = (viewLevels (above ++ runLevels group ++ below) k).join := by
  have hok' := hok
  rw [List.append_assoc] at hok'
  obtain ⟨-, -, hgb⟩ := levelsOk_append hok'
  obtain ⟨hexact, hfree, -⟩ := levelsOk_append hgb
  have hmem : ∀ lvl ∈ group, Level.run lvl.1 lvl.2 ∈ runLevels group := fun lvl hl =>
    List.mem_map_of_mem hl
  refine sortedWork_spec hok (fun hnil => hgroup (List.map_eq_nil_iff.mp hnil)) hbt
    (fun hig bRead hread => ?_) (fun hnil hnone => ?_) fun hf => ⟨rfl, fun l hl => ?_⟩
  · rw [viewLevels_runLevels]
    refine Merging.ofRuns (fun l hl => ?_) hbt hread
    obtain ⟨lvl, hlvl, rfl⟩ := List.mem_map.mp hl
    refine hexact (fun hnil => ?_) _ (hmem lvl hlvl)
    rw [hnil, hnext hnil] at hig
    cases hig
  · rw [hnil, List.append_nil] at hgb
    simp only [viewLevels_runLevels]
    obtain ⟨hvalues, hmatched⟩ := runLevels_values hgb
    exact Dropping.ofRuns hvalues hmatched
  · rcases List.mem_append.mp hl with hl | hl
    · obtain ⟨lvl, hlvl, rfl⟩ := List.mem_map.mp hl
      exact hfree _ (hmem lvl hlvl) (List.all_eq_true.mp hf lvl hlvl)
    · exact hbtFree hf l (Option.mem_toList.mp hl)

end Levels

/-! ### Flushes among the levels -/

/-- The content of an in-memory tree. -/
structure TreeOk (t : Run κ V) : Prop extends RunOk t where
  separator : ∀ r ∈ t, r.separator = false

section Flush

variable {trees : Inputs κ V} {levels : List (Level κ V)} {pBtCsr : Option (Run κ V)}
  {bFreeOnly bAny : Bool} {bPtr : κ → Bool}

theorem RunOk.nil : RunOk ([] : Run κ V) := ⟨List.Pairwise.nil, trivial, nofun, rfl⟩

/-- The free-list-only level on top is empty, and says nothing. -/
theorem freelistTop_spec (hok : LevelsOk levels) :
    (∀ l ∈ freelistTop levels, l = []) ∧
      LevelsOk (if (freelistTop levels).isSome then levels.tail else levels) ∧
        ∀ k, viewLevels (if (freelistTop levels).isSome then levels.tail else levels) k =
          viewLevels levels k := by
  match levels, hok with
  | [], hok => exact ⟨nofun, hok, fun _ => rfl⟩
  | .run lhs true :: levels, ⟨_, hfree, hrest⟩ =>
      have hnil : lhs = [] := hfree rfl
      refine ⟨by rintro l ⟨⟩; exact hnil, hrest, fun k => ?_⟩
      show viewLevels levels k = viewLevels (.run lhs true :: levels) k
      unfold viewLevels
      rw [List.findSome?_cons, hnil]
      rfl
  | .run lhs false :: levels, hok => exact ⟨nofun, hok, fun _ => rfl⟩
  | .merging _ _ _ _ _ :: levels, hok => exact ⟨nofun, hok, fun _ => rfl⟩

variable (bPtr) in
/-- The new level has the records of the trees, or their values if it is the only one. -/
theorem newToplevelRun_spec (htrees : ∀ t ∈ trees, TreeOk t) (hok : LevelsOk levels)
    (hbt : ∀ l ∈ pBtCsr, SepRun l) (hnext : levels = [] → pBtCsr = none) :
    (RunOk (newToplevelRun trees pBtCsr levels bPtr) ∧
        ∀ k, lookup (newToplevelRun trees pBtCsr levels bPtr) k = view trees k) ∨
      levels = [] ∧ ValuesOk (newToplevelRun trees pBtCsr levels bPtr) ∧
        ∀ k, (lookup (newToplevelRun trees pBtCsr levels bPtr) k).join = (view trees k).join := by
  obtain ⟨hfl, -, -⟩ := freelistTop_spec hok
  cases levels with
  | nil =>
      rw [hnext rfl]
      -- no level is below: deletes are dropped
      have hstart : Dropping (fun k => (view trees k).join) ⟨[], trees⟩ :=
        ⟨fun l hl => ⟨(htrees l hl).sorted, (htrees l hl).bare⟩,
          fun l hl => (htrees l (List.dropLast_subset _ hl)).matched, ⟨List.Pairwise.nil, nofun⟩,
          nofun, fun _ => rfl⟩
      obtain ⟨hadv, hvisit⟩ := hstart.advance
      obtain ⟨hm, -⟩ := hadv.steps bPtr (size trees) hvisit
      obtain ⟨hvalues, hview⟩ := hm.done (mergeWorkerSteps_done _ (size_multiCursorAdvance _ _))
      have heq : newToplevelRun trees none [] bPtr = (mergeWorkerSteps bPtr true (size trees)
          ⟨[], multiCursorAdvance true none trees⟩).lhs := by
        unfold newToplevelRun
        simp only [freelistTop, Option.toList_none, List.append_nil, List.isEmpty_nil]
      rw [heq]
      exact .inr ⟨rfl, hvalues, hview⟩
  | cons lvl levels =>
      -- deletes are kept: trees first, then the separators of the level below
      have hruns : ∀ l ∈ trees ++ (freelistTop (lvl :: levels)).toList ++ pBtCsr.toList,
          RunOk l := by
        intro l hl
        rcases List.mem_append.mp hl with hl | hl
        · rcases List.mem_append.mp hl with hl | hl
          · exact (htrees l hl).toRunOk
          · rw [hfl l (Option.mem_toList.mp hl)]
            exact RunOk.nil
        · have hsep := hbt l (Option.mem_toList.mp hl)
          exact ⟨hsep.sorted, hsep.matched, hsep.bare, hsep.gap⟩
      have hlast : SepLast (trees ++ (freelistTop (lvl :: levels)).toList ++ pBtCsr.toList) := by
        refine List.pairwise_append.mpr ⟨?_, ?_, fun l hl m hm => .inr ?_⟩
        · refine List.Pairwise.imp_of_mem (R := fun _ _ => True) (fun {l m} hl _ _ => .inl ?_)
            (List.pairwise_of_forall fun _ _ => trivial)
          rcases List.mem_append.mp hl with hl | hl
          · exact (htrees l hl).separator
          · rw [hfl l (Option.mem_toList.mp hl)]
            exact nofun
        · cases pBtCsr with
          | none => exact List.Pairwise.nil
          | some l => exact List.pairwise_singleton _ _
        · exact (hbt m (Option.mem_toList.mp hm)).separator
      obtain ⟨hadv, hvisit⟩ := (Merging.start hruns hlast).advance
      obtain ⟨hm, -⟩ := hadv.steps bPtr (size _) hvisit
      obtain ⟨hrun, hview⟩ := hm.done (mergeWorkerSteps_done _ (size_multiCursorAdvance _ _))
      refine .inl ⟨hrun, fun k => (hview k).trans ?_⟩
      have hnone : view (freelistTop (lvl :: levels)).toList k = none :=
        view_empty fun l hl => hfl l (Option.mem_toList.mp hl)
      rw [view_separators hbt, view_append, hnone, Option.or_none]

variable (bFreeOnly bAny bPtr) in
/-- **A flush** keeps the values. -/
theorem sortedNewToplevel_spec (htrees : ∀ t ∈ trees, TreeOk t) (hok : LevelsOk levels)
    (hbt : ∀ l ∈ pBtCsr, SepRun l) (hnext : levels = [] → pBtCsr = none)
    (hfree : bFreeOnly = true → trees = [] ∧ pBtCsr = none) :
    LevelsOk (sortedNewToplevel trees pBtCsr bFreeOnly bAny levels bPtr) ∧
      ∀ k, (viewLevels (sortedNewToplevel trees pBtCsr bFreeOnly bAny levels bPtr) k).join =
        ((view trees k).or (viewLevels levels k)).join := by
  obtain ⟨hfl, hrest, hview⟩ := freelistTop_spec hok
  have hspec := newToplevelRun_spec bPtr htrees hok hbt hnext
  have hnil : bFreeOnly = true → newToplevelRun trees pBtCsr levels bPtr = [] := by
    intro hf
    -- a flush of the free list only has no keys at all
    obtain ⟨rfl, rfl⟩ := hfree hf
    have hempty : ∀ l ∈ [] ++ (freelistTop levels).toList ++ (none : Option (Run κ V)).toList,
        l = [] := by
      intro l hl
      rw [List.nil_append, Option.toList_none, List.append_nil] at hl
      exact hfl l (Option.mem_toList.mp hl)
    have hmin := multiCursorMin_empty levels.isEmpty hempty
    unfold newToplevelRun
    simp only
    rw [multiCursorAdvance_eof hmin, mergeWorkerSteps_eof hmin]
  unfold sortedNewToplevel
  simp only
  generalize newToplevelRun trees pBtCsr levels bPtr = lhs at hspec hnil
  by_cases hempty : lhs.isEmpty && !bAny
  · rw [if_pos hempty]
    rw [List.isEmpty_iff.mp (Bool.and_eq_true_iff.mp hempty).1] at hspec
    -- nothing was written, and no segment is made
    refine ⟨hok, fun k => ?_⟩
    rcases hspec with ⟨-, hsame⟩ | ⟨rfl, -, hsame⟩
    · rw [← hsame k]
      rfl
    · exact (hsame k).trans (congrArg Option.join Option.or_none.symm)
  · rw [if_neg hempty]
    have hcons : ∀ (rest : List (Level κ V)) k, viewLevels (.run lhs bFreeOnly :: rest) k =
        (lookup lhs k).or (viewLevels rest k) := by
      intro rest k
      show viewLevels ([.run lhs bFreeOnly] ++ rest) k = _
      rw [viewLevels_append, viewLevels_singleton]
      rfl
    rcases hspec with ⟨hrun, hsame⟩ | ⟨rfl, hvalues, hsame⟩
    · exact ⟨⟨.inl hrun, hnil, hrest⟩, fun k => by rw [hcons, hview, hsame]⟩
    · refine ⟨⟨.inr ⟨rfl, hvalues⟩, hnil, trivial⟩, fun k => ?_⟩
      rw [hcons]
      show ((lookup lhs k).or none).join = ((view trees k).or none).join
      rw [Option.or_none, Option.or_none, hsame]

end Flush

/-! ### Runs of the database -/

/-- `TREE_NONE`, `TREE_OLD` and `TREE_BOTH`. -/
inductive TreeSet
  | none
  | old
  | both

/-- The in-memory trees that are not in the levels yet, and the levels. -/
structure Database (κ V : Type) where
  current : Run κ V
  old : Option (Run κ V)
  levels : List (Level κ V)

/-- `multiCursorAddTree`: the trees that a cursor has, the current one first. -/
def multiCursorAddTree (db : Database κ V) : TreeSet → Inputs κ V
  | .none => []
  | .old => db.old.toList
  | .both => db.current :: db.old.toList

/-- **The value of a key**: what the newest record says that says something. -/
def Database.visible (db : Database κ V) (k : κ) : Option V :=
  ((view (multiCursorAddTree db .both) k).or (viewLevels db.levels k)).join

/-- A flush.  The trees that it wrote are not read any more: of the old one the
snapshot says that it has it (`iLogOff`), and `lsm_flush` discards both. -/
def Database.flush (db : Database κ V) (eTree : TreeSet) (pBtCsr : Option (Run κ V)) (bAny : Bool)
    (bPtr : κ → Bool) : Database κ V :=
  let levels := sortedNewToplevel (multiCursorAddTree db eTree) pBtCsr (eTree matches .none) bAny
    db.levels bPtr
  match eTree with
  | .none => { db with levels }
  | .old => { db with old := none, levels }
  | .both => { current := [], old := none, levels }

/-- A merge of `sortedWork`: of any level whose merge is in progress, or of any
complete levels next to each other.  `sortedSelectLevel` chooses among these by their
ages and by `nMerge`. -/
inductive MergeStep : List (Level κ V) → List (Level κ V) → Prop
  | work (above below : List (Level κ V)) (lhs : Run κ V) (rhs : Inputs κ V)
      (pBtCsr : Option (Run κ V)) (splitKey : Option κ) (bFreeOnly : Bool) (bPtr : κ → Bool)
      (nStep : ℕ) (free : FreelistWork) :
      MergeStep (above ++ .merging lhs rhs pBtCsr splitKey bFreeOnly :: below)
        (sortedWork above lhs rhs pBtCsr bFreeOnly below bPtr nStep free)
  | mergeSetup (above below : List (Level κ V)) (group : List (Run κ V × Bool))
      (pBtCsr : Option (Run κ V)) (bPtr : κ → Bool) (nStep : ℕ) (free : FreelistWork)
      (hgroup : group ≠ []) (hbt : ∀ l ∈ pBtCsr, SepRun l) (hnext : below = [] → pBtCsr = none)
      (hfree : group.all Prod.snd = true → ∀ l ∈ pBtCsr, l = []) :
      MergeStep (above ++ runLevels group ++ below)
        (sortedWork above [] (group.map Prod.fst) pBtCsr (group.all Prod.snd) below bPtr
          nStep free)

/-- The steps that write to the levels. -/
inductive Database.Step : Database κ V → Database κ V → Prop
  | flush (db : Database κ V) (eTree : TreeSet) (pBtCsr : Option (Run κ V)) (bAny : Bool)
      (bPtr : κ → Bool) (hbt : ∀ l ∈ pBtCsr, SepRun l) (hnext : db.levels = [] → pBtCsr = none)
      (htree : eTree = .none → pBtCsr = none) :
      Step db (db.flush eTree pBtCsr bAny bPtr)
  | merge (db : Database κ V) (levels : List (Level κ V)) (h : MergeStep db.levels levels) :
      Step db { db with levels }

/-- Trees and levels are sound. -/
structure Database.Ok (db : Database κ V) : Prop where
  current : TreeOk db.current
  old : ∀ t ∈ db.old, TreeOk t
  levels : LevelsOk db.levels

section Step

variable {db db' : Database κ V}

theorem Database.Ok.trees (h : db.Ok) (eTree : TreeSet) :
    ∀ t ∈ multiCursorAddTree db eTree, TreeOk t := by
  intro t ht
  cases eTree with
  | none => cases ht
  | old => exact h.old t (Option.mem_toList.mp ht)
  | both =>
      rcases List.mem_cons.mp ht with rfl | ht
      · exact h.current
      · exact h.old t (Option.mem_toList.mp ht)

theorem TreeOk.nil : TreeOk ([] : Run κ V) := ⟨RunOk.nil, nofun⟩

/-- A merge keeps all values. -/
theorem MergeStep.view {levels levels' : List (Level κ V)} (hok : LevelsOk levels)
    (h : MergeStep levels levels') :
    LevelsOk levels' ∧ ∀ k, (viewLevels levels' k).join = (viewLevels levels k).join := by
  cases h with
  | work above below lhs rhs pBtCsr splitKey bFreeOnly bPtr nStep free =>
      exact sortedWork_merging bPtr nStep free hok
  | mergeSetup above below group pBtCsr bPtr nStep free hgroup hbt hnext hfree =>
      exact sortedWork_runs bPtr nStep free hgroup hok hbt hnext hfree

/-- A step keeps all values. -/
theorem Database.Step.visible (hok : db.Ok) (h : db.Step db') :
    db'.Ok ∧ ∀ k, db'.visible k = db.visible k := by
  cases h with
  | flush eTree pBtCsr bAny bPtr hbt hnext htree =>
      obtain ⟨hlevels, hview⟩ := sortedNewToplevel_spec (eTree matches .none) bAny bPtr
        (hok.trees eTree) hok.levels hbt hnext
        (fun hf => by cases eTree <;> first | exact ⟨rfl, htree rfl⟩ | cases hf)
      cases eTree with
      | none => exact ⟨⟨hok.current, hok.old, hlevels⟩, fun k => join_or_congr (hview k)⟩
      | old =>
          refine ⟨⟨hok.current, nofun, hlevels⟩, fun k => ?_⟩
          show ((view [db.current] k).or _).join =
            ((view ([db.current] ++ db.old.toList) k).or (viewLevels db.levels k)).join
          rw [view_append, Option.or_assoc]
          exact join_or_congr (hview k)
      | both =>
          exact ⟨⟨TreeOk.nil, nofun, hlevels⟩, hview⟩
  | merge levels hmerge =>
      obtain ⟨hlevels, hview⟩ := hmerge.view hok.levels
      exact ⟨⟨hok.current, hok.old, hlevels⟩, fun k => join_or_congr (hview k)⟩

/-- Flushes and merges, one after the other, from a database `db`. -/
def compaction (db : Database κ V) : Runs.System (Database κ V) Unit where
  init := (· = db)
  step s _ t := s.Step t

/-- **Flushes and merges keep every value**, at each moment of each merge. -/
theorem compaction_keeps_visible (hok : db.Ok)
    (h : Runs.Reach (compaction db) (fun _ _ => True) db') :
    db'.Ok ∧ ∀ k, db'.visible k = db.visible k := by
  refine h.invariant (I := fun db' => db'.Ok ∧ ∀ k, db'.visible k = db.visible k) ?_ ?_
  · rintro s rfl
    exact ⟨hok, fun _ => rfl⟩
  · rintro s _ t ⟨hs, hsame⟩ - hstep
    obtain ⟨ht, hkeep⟩ := Database.Step.visible hs hstep
    exact ⟨ht, fun k => (hkeep k).trans (hsame k)⟩

/-- A merge of two levels stopped after one record, and a flush on top of it. -/
theorem compaction_keeps_visible_twoLevels :
    let db : Database ℕ ℕ :=
      { current := [⟨1, .insert 5, true, false, false⟩, ⟨4, .none, false, true, false⟩]
        old := none
        levels := [.run [⟨2, .pointDelete, false, false, false⟩] false,
          .run [⟨2, .insert 7, false, false, false⟩, ⟨6, .insert 8, false, false, false⟩] false] }
    let free : FreelistWork := ⟨true, false, false⟩
    let merged : Database ℕ ℕ := { db with
      levels := sortedWork [] [] [[⟨2, .pointDelete, false, false, false⟩],
        [⟨2, .insert 7, false, false, false⟩, ⟨6, .insert 8, false, false, false⟩]] none false []
          (fun _ => false) 1 free }
    (merged.flush .both none false fun _ => false).Ok ∧
      ∀ k, (merged.flush .both none false fun _ => false).visible k = db.visible k := by
  intro db free merged
  have hok : db.Ok := by
    refine ⟨⟨⟨?_, ?_, ?_, rfl⟩, ?_⟩, by rintro l ⟨⟩, .inl ⟨?_, ?_, ?_, rfl⟩, by rintro ⟨⟩,
      .inl ⟨?_, ?_, ?_, rfl⟩, by rintro ⟨⟩, trivial⟩
    all_goals simp [db, Sorted, Matched, Run.gap, Bare]
  have hmerge : db.Step merged := .merge db merged.levels (.mergeSetup [] []
    [([⟨2, .pointDelete, false, false, false⟩], false),
      ([⟨2, .insert 7, false, false, false⟩, ⟨6, .insert 8, false, false, false⟩], false)]
    none (fun _ => false) 1 free (List.cons_ne_nil _ _) (by rintro _ ⟨⟩) (fun _ => rfl)
    (by rintro ⟨⟩))
  have hflush := Database.Step.flush merged .both none false (fun _ => false) (by rintro _ ⟨⟩)
    (fun _ => rfl) (by rintro ⟨⟩)
  exact compaction_keeps_visible hok
    (.step (a := ()) (.step (a := ()) (.init rfl) trivial hmerge) trivial hflush)

end Step

end Lsm

end MoVeBench
