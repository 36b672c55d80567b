/-
MoVeBench/Lsm/Levels.lean

The levels of a snapshot, and a merge of them.

A level whose merge is in progress is read through its split key: keys before it
from the records merged so far, the others from the segments being merged.  A
merge may stop after any number of records; the level that it leaves says what
the segments said at the start, or has their values if no level is below.
-/
import MoVeBench.Lsm.Merge

namespace MoVeBench

namespace Lsm

open Run

variable {κ V : Type} [LinearOrder κ]

/-! ### Levels -/

/-- A level of a snapshot.  While it is being merged, `rhs` and `pBtCsr` are the
segments and the separators of the next level from the records on where the merge
goes on (`Merge.aInput`); what lies before them may have been gobbled. -/
inductive Level (κ V : Type)
  | run (lhs : Run κ V) (bFreeOnly : Bool)
  | merging (lhs : Run κ V) (rhs : Inputs κ V) (pBtCsr : Option (Run κ V)) (splitKey : Option κ)
      (bFreeOnly : Bool)

/-- What a level says about a key. -/
def Level.lookup : Level κ V → κ → Option (Option V)
  | .run lhs _, k => Run.lookup lhs k
  | .merging lhs rhs _ splitKey _, k =>
      if splitKey.any fun s => decide (s ≤ k) then view rhs k
      else lookupThen (fun _ => if gapAny rhs then some none else none) lhs k

/-- The segment of a level that is not being merged. -/
def Level.segment? : Level κ V → Option (Run κ V)
  | .run lhs _ => some lhs
  | .merging _ _ _ _ _ => none

def viewLevels (levels : List (Level κ V)) (k : κ) : Option (Option V) :=
  levels.findSome? fun lvl => lvl.lookup k

/-! ### A merge -/

/-- Separator keys are not visited. -/
def dropSeparators (l : Run κ V) : Run κ V := l.filter fun r => !r.separator

/-- The segments as the cursor visits them: with `CURSOR_READ_SEPARATORS` the last
one has its separators. -/
def multiCursorAddRhs (bReadSeparators : Bool) : Inputs κ V → Inputs κ V
  | [] => []
  | [l] => [if bReadSeparators then l else dropSeparators l]
  | l :: m :: ls => dropSeparators l :: multiCursorAddRhs bReadSeparators (m :: ls)

/-- `mergeWorkerInit`: deletes are ignored if there is no older level. -/
def mergeWorkerInit (lhs : Run κ V) (rhs : Inputs κ V) (pBtCsr : Option (Run κ V))
    (bNext : Bool) : MergeWorker κ V where
  lhs := lhs
  inputs := multiCursorAdvance (!bNext && pBtCsr.isNone) none
    (multiCursorAddRhs (bNext && pBtCsr.isNone) rhs ++ pBtCsr.toList)

/-- The free-list entries come after all user records: whether they are merged too
(`bDone`), whether there are any (`bAny`), and whether those of the free-list-only
levels above are merged with them (`bUseFreelist`). -/
structure FreelistWork where
  bDone : Bool
  bAny : Bool
  bUseFreelist : Bool

/-- The level after a merge was worked on; `none` if nothing is left of it. -/
def sortedWorkLevel (mw : MergeWorker κ V) (bIgnoreDelete : Bool) (nRight : ℕ) (bFreeOnly : Bool)
    (free : FreelistWork) : Option (Level κ V) :=
  match multiCursorMin bIgnoreDelete mw.inputs with
  | some p => some (.merging mw.lhs (mw.inputs.take nRight) (mw.inputs.drop nRight).head?
      (some p.cur.key) bFreeOnly)
  | none =>
      if !free.bDone then some (.merging mw.lhs (mw.inputs.take nRight)
        (mw.inputs.drop nRight).head? none bFreeOnly)
      else if mw.lhs.isEmpty && !free.bAny then none
      else some (.run mw.lhs bFreeOnly)

/-- `mergeInsertFreelistSegments`: the levels above become inputs. -/
def mergeInsertFreelistSegments (above : List (Level κ V)) (mw : MergeWorker κ V) :
    MergeWorker κ V :=
  { mw with inputs := above.filterMap Level.segment? ++ mw.inputs }

/-- `LEVEL_FREELIST_ONLY`, and no merge in progress. -/
def Level.freelistRun : Level κ V → Bool
  | .run _ bFreeOnly => bFreeOnly
  | .merging _ _ _ _ _ => false

/-- One merge of `sortedWork`, on the level between `above` and `below`: at most
`nStep` records are merged, whatever the budget of pages was.  If the user records
are all merged and the levels above hold nothing but free-list entries, these are
merged too, to the end. -/
def sortedWork (above : List (Level κ V)) (lhs : Run κ V) (rhs : Inputs κ V)
    (pBtCsr : Option (Run κ V)) (bFreeOnly : Bool) (below : List (Level κ V)) (bPtr : κ → Bool)
    (nStep : ℕ) (free : FreelistWork) : List (Level κ V) :=
  let bIgnoreDelete := below.isEmpty && pBtCsr.isNone
  let mw := mergeWorkerSteps bPtr bIgnoreDelete nStep
    (mergeWorkerInit lhs rhs pBtCsr (!below.isEmpty))
  if free.bUseFreelist && (multiCursorMin bIgnoreDelete mw.inputs).isNone &&
      above.all Level.freelistRun then
    -- the merge is at its end: the free-list segments above are merged too
    let mw' := mergeInsertFreelistSegments above mw
    let mw'' := mergeWorkerSteps bPtr bIgnoreDelete (size mw'.inputs) mw'
    (sortedWorkLevel mw'' bIgnoreDelete (above.length + rhs.length) bFreeOnly
      { free with bDone := true }).toList ++ below
  else
    above ++ (sortedWorkLevel mw bIgnoreDelete rhs.length bFreeOnly free).toList ++ below

/-! ### Sound levels -/

/-- A run of separators. -/
structure SepRun (l : Run κ V) : Prop where
  sorted : Sorted l
  bare : Bare l
  separator : ∀ r ∈ l, r.separator = true

/-- The records merged are before the split key, the others are not. -/
structure SplitOk (lhs : Run κ V) (inputs : Inputs κ V) (splitKey : Option κ) : Prop where
  lhs : ∀ s, splitKey = some s → ∀ o ∈ lhs, o.key < s
  rhs : ∀ s, splitKey = some s → ∀ l ∈ inputs, ∀ r ∈ l, s ≤ r.key
  eof : splitKey = none → ∀ l ∈ inputs, l = []

/-- The segments of a merge that keeps deletes. -/
def RhsOk (rhs : Inputs κ V) : Prop := ∀ l ∈ rhs, Sorted l ∧ Matched false l ∧ Bare l

/-- A merge in progress whose deletes matter: a range may be open at the split key. -/
structure ExactMerge (lhs : Run κ V) (rhs : Inputs κ V) (pBtCsr : Option (Run κ V))
    (splitKey : Option κ) : Prop where
  segments : RhsOk rhs
  separators : ∀ l ∈ pBtCsr, SepRun l
  sorted : Sorted lhs
  bare : Bare lhs
  matched : Matched (gapAny rhs) lhs
  gap : Run.gap (gapAny rhs) lhs = false
  split : SplitOk lhs (rhs ++ pBtCsr.toList) splitKey

/-- A merge in progress of which only the values matter. -/
structure ValuesMerge (lhs : Run κ V) (rhs : Inputs κ V) (pBtCsr : Option (Run κ V))
    (splitKey : Option κ) : Prop where
  segments : ∀ l ∈ rhs, ValuesOk l
  matched : ∀ l ∈ rhs.dropLast, Matched false l
  separators : pBtCsr = none
  merged : ValuesOk lhs
  split : SplitOk lhs rhs splitKey

/-- A level that hides older levels as its records say. -/
def Level.Exact : Level κ V → Prop
  | .run lhs _ => RunOk lhs
  | .merging lhs rhs pBtCsr splitKey _ => ExactMerge lhs rhs pBtCsr splitKey

/-- A level under which there is none: only its values matter. -/
def Level.Values : Level κ V → Prop
  | .run lhs _ => ValuesOk lhs
  | .merging lhs rhs pBtCsr splitKey _ => ValuesMerge lhs rhs pBtCsr splitKey

/-- A free-list-only level has no user records. -/
def Level.FreeOk : Level κ V → Prop
  | .run lhs bFreeOnly => bFreeOnly = true → lhs = []
  | .merging lhs rhs pBtCsr _ bFreeOnly =>
      bFreeOnly = true → lhs = [] ∧ ∀ l ∈ rhs ++ pBtCsr.toList, l = []

section Separators

variable {l lhs : Run κ V} {rhs : Inputs κ V} {pBtCsr : Option (Run κ V)} {splitKey : Option κ}
  {k : κ} {bRead bFreeOnly : Bool}

theorem SepRun.matched (h : SepRun l) : Matched false l := by
  obtain ⟨hs, hb, hsep⟩ := h
  induction l with
  | nil => trivial
  | cons r l ih =>
      have hr := hb r List.mem_cons_self (hsep r List.mem_cons_self)
      refine ⟨hr.2.1.trans ?_, ih hs.tail (fun r' h' => hb r' (List.mem_cons_of_mem _ h'))
        fun r' h' => hsep r' (List.mem_cons_of_mem _ h')⟩
      cases l with
      | nil => rfl
      | cons r' l =>
          have hmem : r' ∈ r :: r' :: l := List.mem_cons_of_mem _ List.mem_cons_self
          exact (hb r' hmem (hsep r' hmem)).2.2.symm

theorem SepRun.gap (h : SepRun l) : Run.gap false l = false := by
  cases l with
  | nil => rfl
  | cons r l => exact (h.bare r List.mem_cons_self (h.separator r List.mem_cons_self)).2.2

theorem SepRun.lookup (h : SepRun l) (k : κ) : Run.lookup l k = none := by
  obtain ⟨hs, hb, hsep⟩ := h
  induction l with
  | nil => rfl
  | cons r l ih =>
      obtain ⟨hd, -, he⟩ := hb r List.mem_cons_self (hsep r List.mem_cons_self)
      have ih' := ih hs.tail (fun r' h' => hb r' (List.mem_cons_of_mem _ h'))
        fun r' h' => hsep r' (List.mem_cons_of_mem _ h')
      unfold Run.lookup at ih' ⊢
      rw [lookupThen, hd, he, ih']
      simp

/-- Separators do not matter for what a run says. -/
theorem lookup_dropSeparators (hs : Sorted l) (hm : Matched false l) (hb : Bare l) (k : κ) :
    Run.lookup (dropSeparators l) k = Run.lookup l k ∧
      Run.gap false (dropSeparators l) = Run.gap false l ∧ Matched false (dropSeparators l) := by
  induction l with
  | nil => exact ⟨rfl, rfl, trivial⟩
  | cons r l ih =>
      obtain ⟨ihl, ihg, ihm⟩ := ih hs.tail hm.2 fun r' h' => hb r' (List.mem_cons_of_mem _ h')
      cases hsep : r.separator with
      | false =>
          have hkeep : dropSeparators (r :: l) = r :: dropSeparators l :=
            List.filter_cons_of_pos (by rw [hsep]; rfl)
          rw [hkeep]
          refine ⟨?_, rfl, hm.1.trans ihg.symm, ihm⟩
          unfold Run.lookup at ihl ⊢
          rw [lookupThen, lookupThen, ihl]
      | true =>
          have hdrop : dropSeparators (r :: l) = dropSeparators l :=
            List.filter_cons_of_neg (by simp [hsep])
          obtain ⟨hd, hst, he⟩ := hb r List.mem_cons_self hsep
          have hgap : Run.gap false l = false := hm.1.symm.trans hst
          rw [hdrop]
          refine ⟨?_, ?_, ihm⟩
          · rw [ihl]
            by_cases hk : r.key < k
            · rw [lookup_cons_after hk]
            · have hnone : Run.lookup l k = none := by
                rw [lookup_before fun r' hr' => (not_lt.mp hk).trans_lt
                  (hs.head_lt r' (List.mem_of_mem_head? hr')), hgap]
                rfl
              rw [hnone]
              rcases (not_lt.mp hk).lt_or_eq with hlt | rfl
              · rw [lookup_before (by rintro r' ⟨⟩; exact hlt)]
                show none = if r.endDelete = true then _ else _
                rw [he]
                rfl
              · rw [lookup_cons_self, hd]
                rfl
          · rw [ihg, hgap]
            exact he.symm

/-- Nor for its values, whatever its ranges. -/
theorem lookup_dropSeparators_join (hs : Sorted l) (hb : Bare l) (k : κ) :
    (Run.lookup (dropSeparators l) k).join = (Run.lookup l k).join := by
  induction l with
  | nil => rfl
  | cons r l ih =>
      have ih' := ih hs.tail fun r' h' => hb r' (List.mem_cons_of_mem _ h')
      cases hsep : r.separator with
      | false =>
          have hkeep : dropSeparators (r :: l) = r :: dropSeparators l :=
            List.filter_cons_of_pos (by rw [hsep]; rfl)
          rw [hkeep]
          unfold Run.lookup at ih' ⊢
          rw [lookupThen, lookupThen]
          split_ifs
          · rfl
          · rfl
          · rfl
          · exact ih'
      | true =>
          have hdrop : dropSeparators (r :: l) = dropSeparators l :=
            List.filter_cons_of_neg (by simp [hsep])
          obtain ⟨hd, -, he⟩ := hb r List.mem_cons_self hsep
          rw [hdrop, ih']
          by_cases hk : r.key < k
          · rw [lookup_cons_after hk]
          · rw [lookup_before fun r' hr' => (not_lt.mp hk).trans_lt
              (hs.head_lt r' (List.mem_of_mem_head? hr'))]
            rcases (not_lt.mp hk).lt_or_eq with hlt | rfl
            · rw [lookup_before (by rintro r' ⟨⟩; exact hlt)]
              split_ifs <;> rfl
            · rw [lookup_cons_self, hd]
              split_ifs <;> rfl

omit [LinearOrder κ] in
/-- The segments as the cursor visits them are the segments, with or without their
separators. -/
theorem multiCursorAddRhs_induct {P : Run κ V → Run κ V → Prop} (hself : ∀ l ∈ rhs, P l l)
    (hdrop : ∀ l ∈ rhs, P l (dropSeparators l)) :
    List.Forall₂ P rhs (multiCursorAddRhs bRead rhs) := by
  induction rhs using multiCursorAddRhs.induct with
  | case1 => exact .nil
  | case2 l =>
      refine .cons ?_ .nil
      split_ifs
      · exact hself l List.mem_cons_self
      · exact hdrop l List.mem_cons_self
  | case3 l m ls ih =>
      exact .cons (hdrop l List.mem_cons_self)
        (ih (fun l hl => hself l (List.mem_cons_of_mem _ hl))
          fun l hl => hdrop l (List.mem_cons_of_mem _ hl))

end Separators

/-! ### The inputs of a merge -/

section Inputs

variable {l : Run κ V} {rhs : Inputs κ V} {pBtCsr : Option (Run κ V)} {bRead : Bool}

theorem view_forall {runs runs' : Inputs κ V} {k : κ}
    (h : List.Forall₂ (fun l m => Run.lookup m k = Run.lookup l k) runs runs') :
    view runs' k = view runs k := by
  unfold view
  induction h with
  | nil => rfl
  | cons hl _ ih => rw [List.findSome?_cons, List.findSome?_cons, hl, ih]

omit [LinearOrder κ] in
theorem gapAny_forall {runs runs' : Inputs κ V}
    (h : List.Forall₂ (fun l m => Run.gap false m = Run.gap false l) runs runs') :
    gapAny runs' = gapAny runs := by
  unfold gapAny
  induction h with
  | nil => rfl
  | cons hl _ ih => rw [List.any_cons, List.any_cons, hl, ih]

/-- The separators of the next level say nothing. -/
theorem view_separators (hbt : ∀ l ∈ pBtCsr, SepRun l) (k : κ) :
    view (rhs ++ pBtCsr.toList) k = view rhs k := by
  rw [view_append]
  cases pBtCsr with
  | none => exact Option.or_none
  | some l =>
      have hl : view [l] k = none := by
        unfold view
        rw [List.findSome?_cons, (hbt l rfl).lookup]
        rfl
      rw [Option.toList_some, hl, Option.or_none]

omit [LinearOrder κ] in
theorem gapAny_append {runs runs' : Inputs κ V} :
    gapAny (runs ++ runs') = (gapAny runs || gapAny runs') := List.any_append

theorem gapAny_separators (hbt : ∀ l ∈ pBtCsr, SepRun l) :
    gapAny (rhs ++ pBtCsr.toList) = gapAny rhs := by
  rw [gapAny_append]
  cases pBtCsr with
  | none => exact Bool.or_false _
  | some l =>
      have hl : gapAny [l] = false := by
        show (Run.gap false l || false) = false
        rw [(hbt l rfl).gap]
        rfl
      rw [Option.toList_some, hl, Bool.or_false]

/-- What the cursor visits of the segments. -/
theorem RhsOk.visited (h : RhsOk rhs) :
    List.Forall₂ (fun l m => (∀ k, Run.lookup m k = Run.lookup l k) ∧
      Run.gap false m = Run.gap false l ∧ (Sorted m ∧ Matched false m ∧ Bare m) ∧ m ⊆ l) rhs
      (multiCursorAddRhs bRead rhs) := by
  refine multiCursorAddRhs_induct (fun l hl => ?_) fun l hl => ?_
  · exact ⟨fun _ => rfl, rfl, h l hl, fun _ h => h⟩
  · obtain ⟨hs, hm, hb⟩ := h l hl
    refine ⟨fun k => (lookup_dropSeparators hs hm hb k).1, ?_, ⟨?_, ?_, ?_⟩, ?_⟩
    · cases l with
      | nil => rfl
      | cons r l => exact (lookup_dropSeparators hs hm hb r.key).2.1
    · exact List.Pairwise.sublist List.filter_sublist hs
    · cases l with
      | nil => trivial
      | cons r l => exact (lookup_dropSeparators hs hm hb r.key).2.2
    · exact fun r hr => hb r (List.mem_of_mem_filter hr)
    · exact List.filter_sublist.subset

theorem RhsOk.view_visited (h : RhsOk rhs) (b : Bool) (hbt : ∀ l ∈ pBtCsr, SepRun l) (k : κ) :
    view (multiCursorAddRhs b rhs ++ pBtCsr.toList) k = view rhs k := by
  rw [view_separators hbt]
  exact view_forall (h.visited.imp fun _ _ h => h.1 k)

theorem RhsOk.gapAny_visited (h : RhsOk rhs) (b : Bool) (hbt : ∀ l ∈ pBtCsr, SepRun l) :
    gapAny (multiCursorAddRhs b rhs ++ pBtCsr.toList) = gapAny rhs := by
  rw [gapAny_separators hbt]
  exact gapAny_forall (h.visited.imp fun _ _ h => h.2.1)

omit [LinearOrder κ] in
theorem exists_of_mem_right {R : Run κ V → Run κ V → Prop} {runs runs' : Inputs κ V}
    (h : List.Forall₂ R runs runs') {m : Run κ V} (hm : m ∈ runs') : ∃ l ∈ runs, R l m := by
  induction h with
  | nil => cases hm
  | cons hl _ ih =>
      rcases List.mem_cons.mp hm with rfl | hm
      · exact ⟨_, List.mem_cons_self, hl⟩
      · obtain ⟨l, hl, hR⟩ := ih hm
        exact ⟨l, List.mem_cons_of_mem _ hl, hR⟩

theorem RhsOk.mem_visited (h : RhsOk rhs) {m : Run κ V} (hm : m ∈ multiCursorAddRhs bRead rhs) :
    (Sorted m ∧ Matched false m ∧ Bare m) ∧ ∃ l ∈ rhs, m ⊆ l := by
  obtain ⟨l, hl, -, -, hok, hsub⟩ := exists_of_mem_right h.visited hm
  exact ⟨hok, l, hl, hsub⟩

omit [LinearOrder κ] in
/-- Only the last segment visited may have separators. -/
theorem sepLast_visited (b : Bool) (rhs : Inputs κ V) : SepLast (multiCursorAddRhs b rhs) ∧
    (b = false → ∀ m ∈ multiCursorAddRhs b rhs, ∀ r ∈ m, r.separator = false) := by
  have hdrop : ∀ l : Run κ V, ∀ r ∈ dropSeparators l, r.separator = false := fun l r hr => by
    simpa using (List.mem_filter.mp hr).2
  induction rhs using multiCursorAddRhs.induct with
  | case1 => exact ⟨List.Pairwise.nil, fun _ => nofun⟩
  | case2 l =>
      refine ⟨List.pairwise_singleton _ _, fun hb m hm => ?_⟩
      rw [multiCursorAddRhs, hb] at hm
      rw [List.mem_singleton.mp hm]
      exact hdrop l
  | case3 l m ls ih =>
      refine ⟨List.pairwise_cons.mpr ⟨fun _ _ => .inl (hdrop l), ih.1⟩, fun hb m' hm' => ?_⟩
      rcases List.mem_cons.mp hm' with rfl | hm'
      · exact hdrop l
      · exact ih.2 hb m' hm'

/-- The inputs of a merge that keeps deletes: the separators of the last segment, or
those of the next level. -/
theorem RhsOk.inputsOk (h : RhsOk rhs) (hbt : ∀ l ∈ pBtCsr, SepRun l)
    (hread : bRead = true → pBtCsr = none) :
    InputsOk (multiCursorAddRhs bRead rhs ++ pBtCsr.toList) := by
  have hmem : ∀ l ∈ multiCursorAddRhs bRead rhs ++ pBtCsr.toList,
      Sorted l ∧ Matched false l ∧ Bare l := by
    intro l hl
    rcases List.mem_append.mp hl with hl | hl
    · exact (h.mem_visited hl).1
    · have hsep := hbt l (Option.mem_toList.mp hl)
      exact ⟨hsep.sorted, hsep.matched, hsep.bare⟩
  refine ⟨fun l hl => (hmem l hl).1, fun l hl => (hmem l hl).2.1, fun l hl => (hmem l hl).2.2, ?_⟩
  obtain ⟨hlast, hno⟩ := sepLast_visited bRead rhs
  refine List.pairwise_append.mpr ⟨hlast, ?_, fun l hl m hm => .inr ?_⟩
  · cases pBtCsr with
    | none => exact List.Pairwise.nil
    | some l => exact List.pairwise_singleton _ _
  · exact (hbt m (Option.mem_toList.mp hm)).separator

omit [LinearOrder κ] in
theorem length_visited (rhs : Inputs κ V) : (multiCursorAddRhs bRead rhs).length = rhs.length :=
  (multiCursorAddRhs_induct (P := fun _ _ => True) (fun _ _ => trivial)
    fun _ _ => trivial).length_eq.symm

end Inputs

/-! ### Merges that keep deletes -/

section Exact

variable {target : κ → Option (Option V)} {mw : MergeWorker κ V} {lhs : Run κ V}
  {rhs : Inputs κ V} {pBtCsr : Option (Run κ V)} {splitKey : Option κ} {bRead bFreeOnly : Bool}
  {bPtr : κ → Bool} {nRight : ℕ} {free : FreelistWork}

/-- A merge goes on. -/
theorem ExactMerge.merging (h : ExactMerge lhs rhs pBtCsr splitKey)
    (hread : bRead = true → pBtCsr = none) :
    Merging (Level.merging lhs rhs pBtCsr splitKey bFreeOnly).lookup
      ⟨lhs, multiCursorAddRhs bRead rhs ++ pBtCsr.toList⟩ := by
  have hview := h.segments.view_visited bRead h.separators
  have hgap := h.segments.gapAny_visited bRead h.separators
  have hsub : ∀ l ∈ multiCursorAddRhs bRead rhs ++ pBtCsr.toList,
      ∃ m ∈ rhs ++ pBtCsr.toList, l ⊆ m := by
    intro l hl
    rcases List.mem_append.mp hl with hl | hl
    · obtain ⟨-, m, hm, hsub⟩ := h.segments.mem_visited hl
      exact ⟨m, List.mem_append_left _ hm, hsub⟩
    · exact ⟨l, List.mem_append_right _ hl, fun _ h => h⟩
  refine ⟨h.segments.inputsOk h.separators hread, h.sorted, h.bare,
    fun o ho l hl r hr => ?_, ?_, ?_, fun k => ?_⟩
  · -- what was written lies before what is left, by the split key
    obtain ⟨m, hm, hlm⟩ := hsub l hl
    rcases e : splitKey with - | s
    · rw [h.split.eof e m hm] at hlm
      exact absurd (hlm hr) List.not_mem_nil
    · exact (h.split.lhs s e o ho).trans_le (h.split.rhs s e m hm r (hlm hr))
  · show Matched (gapAny _) lhs
    rw [hgap]
    exact h.matched
  · show Run.gap (gapAny _) lhs = false
    rw [hgap]
    exact h.gap
  · show lookupThen (view (multiCursorAddRhs bRead rhs ++ pBtCsr.toList)) lhs k =
      if splitKey.any fun s => decide (s ≤ k) then view rhs k
      else lookupThen (fun _ => if gapAny rhs then some none else none) lhs k
    rcases e : splitKey with - | s
    · -- nothing is left of the segments
      have hempty : ∀ l ∈ rhs, l = [] := fun l hl =>
        h.split.eof e l (List.mem_append_left _ hl)
      rw [Option.any_none, if_neg (by decide)]
      refine lookupThen_congr ?_
      rw [hview, view_empty hempty, gapAny_empty hempty]
      rfl
    · rw [Option.any_some]
      by_cases hk : s ≤ k
      · rw [if_pos (decide_eq_true hk), lookupThen_after fun r hr =>
          (h.split.lhs s e r hr).trans_le hk, hview]
      · rw [if_neg (by simpa using hk)]
        refine lookupThen_congr ?_
        rw [hview]
        exact view_before fun l hl r hr => (not_le.mp hk).trans_le
          (h.split.rhs s e l (List.mem_append_left _ hl) r (List.mem_of_mem_head? hr))

/-- A merge of complete segments begins. -/
theorem Merging.ofRuns (h : ∀ l ∈ rhs, RunOk l) (hbt : ∀ l ∈ pBtCsr, SepRun l)
    (hread : bRead = true → pBtCsr = none) :
    Merging (view rhs) ⟨[], multiCursorAddRhs bRead rhs ++ pBtCsr.toList⟩ := by
  have hrhs : RhsOk rhs := fun l hl => ⟨(h l hl).sorted, (h l hl).matched, (h l hl).bare⟩
  refine ⟨hrhs.inputsOk hbt hread, List.Pairwise.nil, nofun, nofun, trivial, ?_, fun k =>
    hrhs.view_visited _ hbt k⟩
  show gapAny _ = false
  rw [hrhs.gapAny_visited _ hbt]
  exact gapAny_complete h

/-- The inputs from the `nRight`-th on are separators, of one level at most. -/
def SepInput (nRight : ℕ) (inputs : Inputs κ V) : Prop :=
  inputs.length ≤ nRight + 1 ∧ ∀ l ∈ inputs.drop nRight, SepRun l

theorem SepRun.dropTo (h : SepRun (κ := κ) (V := V) lhs) (b : Bool) (c : κ ×ₗ ℤ) :
    SepRun (Lsm.dropTo b c lhs) where
  sorted := sorted_dropTo h.sorted
  bare := bare_dropTo h.bare
  separator r hr := h.separator r ((List.dropWhile_sublist _).subset hr)

theorem SepInput.dropCur {inputs : Inputs κ V} {b : Bool} (h : SepInput nRight inputs)
    (p : Cursor κ V) : SepInput nRight (Lsm.dropCur b inputs p) := by
  refine ⟨?_, fun l hl => ?_⟩
  · rw [Lsm.dropCur, List.length_map]
    exact h.1
  · rw [Lsm.dropCur, ← List.map_drop] at hl
    obtain ⟨m, hm, rfl⟩ := List.mem_map.mp hl
    exact (h.2 m hm).dropTo _ _

theorem SepInput.eq {inputs : Inputs κ V} (h : SepInput nRight inputs) :
    inputs.take nRight ++ (inputs.drop nRight).head?.toList = inputs := by
  have hlen : (inputs.drop nRight).length ≤ 1 := by
    rw [List.length_drop]
    have := h.1
    omega
  conv_rhs => rw [← List.take_append_drop nRight inputs]
  congr 1
  match inputs.drop nRight, hlen with
  | [], _ => rfl
  | [l], _ => rfl

/-- What moving the inputs on keeps is kept by a merge. -/
theorem mergeWorkerSteps_inputs {P : Inputs κ V → Prop} {b : Bool} (n : ℕ) (h : P mw.inputs)
    (hdrop : ∀ inputs p, P inputs → P (Lsm.dropCur b inputs p)) :
    P (mergeWorkerSteps bPtr b n mw).inputs := by
  induction n generalizing mw with
  | zero => exact h
  | succ n ih =>
      rw [mergeWorkerSteps]
      rcases hp : multiCursorMin b mw.inputs with - | p
      · exact h
      · simp only
        rw [multiCursorAdvance_next hp]
        exact ih (multiCursorAdvance_induct (hdrop _ p h) fun inputs p h _ _ => hdrop inputs p h).1

theorem viewLevels_singleton (lvl : Level κ V) (k : κ) : viewLevels [lvl] k = lvl.lookup k := by
  unfold viewLevels
  rw [List.findSome?_cons]
  rcases lvl.lookup k with - | w <;> rfl

/-- A merge that stops at a record is split at its key. -/
theorem Merging.splitOk {p : Cursor κ V} (hm : Merging target mw)
    (hp : multiCursorMin false mw.inputs = some p) : SplitOk mw.lhs mw.inputs (some p.cur.key) := by
  have h := (multiCursorMin_spec hp).around
  refine ⟨?_, ?_, nofun⟩
  · rintro s ⟨⟩
    exact fun o ho => hm.before o ho _ h.mem_cur p.cur List.mem_cons_self
  · rintro s ⟨⟩
    exact fun l hl => (hm.inputs.sorted l hl).le_of_head (h.le l hl)

variable (bFreeOnly free) in
/-- What the level says once the merge stops, at its end or before it. -/
theorem sortedWorkLevel_exact (hm : Merging target mw) (hsep : SepInput nRight mw.inputs) :
    (∀ lvl ∈ sortedWorkLevel mw false nRight bFreeOnly free, lvl.Exact) ∧
      ∀ k, viewLevels (sortedWorkLevel mw false nRight bFreeOnly free).toList k = target k := by
  have heq := hsep.eq
  have hbt : ∀ l ∈ (mw.inputs.drop nRight).head?, SepRun l := fun l hl =>
    hsep.2 l (List.mem_of_mem_head? hl)
  have hview : ∀ k, view (mw.inputs.take nRight) k = view mw.inputs k := fun k => by
    conv_rhs => rw [← heq]
    exact (view_separators hbt k).symm
  have hgap : gapAny (mw.inputs.take nRight) = gapAny mw.inputs := by
    conv_rhs => rw [← heq]
    exact (gapAny_separators hbt).symm
  have hrhs : RhsOk (mw.inputs.take nRight) := fun l hl => by
    have hl' := List.mem_of_mem_take hl
    exact ⟨hm.inputs.sorted l hl', hm.inputs.matched l hl', hm.inputs.bare l hl'⟩
  have hmerge : ∀ {splitKey : Option κ}, SplitOk mw.lhs mw.inputs splitKey →
      ExactMerge mw.lhs (mw.inputs.take nRight) (mw.inputs.drop nRight).head? splitKey :=
    fun hsplit => ⟨hrhs, hbt, hm.sorted, hm.bare, by rw [hgap]; exact hm.matched,
      by rw [hgap]; exact hm.gap, by rw [heq]; exact hsplit⟩
  unfold sortedWorkLevel
  rcases hp : multiCursorMin false mw.inputs with - | p
  · have hempty := multiCursorMin_none hp
    obtain ⟨hok, hlookup⟩ := hm.done hp
    simp only
    split_ifs with hdone hnone
    · -- the cursor is at the first free-list entry
      refine ⟨?_, fun k => ?_⟩
      · rintro lvl ⟨⟩
        exact hmerge ⟨nofun, nofun, fun _ => hempty⟩
      · rw [Option.toList_some, viewLevels_singleton]
        show lookupThen (fun _ => if gapAny (mw.inputs.take nRight) then some none else none)
          mw.lhs k = target k
        rw [← hlookup k, hgap, gapAny_empty hempty]
        rfl
    · -- nothing was written: the level goes
      refine ⟨nofun, fun k => ?_⟩
      rw [← hlookup k, List.isEmpty_iff.mp (Bool.and_eq_true_iff.mp hnone).1]
      rfl
    · refine ⟨?_, fun k => ?_⟩
      · rintro lvl ⟨⟩
        exact hok
      · rw [Option.toList_some, viewLevels_singleton]
        exact hlookup k
  · -- the merge stops at a record: its key splits the level
    have hsplit := hm.splitOk hp
    refine ⟨?_, fun k => ?_⟩
    · rintro lvl ⟨⟩
      exact hmerge hsplit
    · rw [Option.toList_some, viewLevels_singleton, ← hm.tells k]
      show (if (some p.cur.key).any fun s => decide (s ≤ k) then view (mw.inputs.take nRight) k
        else lookupThen (fun _ => if gapAny (mw.inputs.take nRight) then some none else none)
          mw.lhs k) = _
      rw [Option.any_some]
      by_cases hk : p.cur.key ≤ k
      · rw [if_pos (decide_eq_true hk), hview,
          lookupThen_after fun r hr => (hsplit.lhs _ rfl r hr).trans_le hk]
      · rw [if_neg (by simpa using hk), hgap]
        refine lookupThen_congr ?_
        exact (view_before fun l hl r hr =>
          (not_le.mp hk).trans_le (hsplit.rhs _ rfl l hl r (List.mem_of_mem_head? hr))).symm

end Exact

/-! ### Merges that drop deletes -/

section Values

variable {target : κ → Option V} {mw : MergeWorker κ V} {l lhs : Run κ V} {rhs : Inputs κ V}
  {pBtCsr : Option (Run κ V)} {splitKey : Option κ} {bFreeOnly : Bool} {nRight : ℕ}
  {free : FreelistWork} {k : κ}

omit [LinearOrder κ] in
theorem multiCursorAddRhs_false : multiCursorAddRhs false rhs = rhs.map dropSeparators := by
  induction rhs using multiCursorAddRhs.induct with
  | case1 => rfl
  | case2 l => rfl
  | case3 l m ls ih =>
      rw [multiCursorAddRhs, ih]
      rfl

theorem ValuesOk.dropSeparators (h : ValuesOk l) : ValuesOk (Lsm.dropSeparators l) where
  sorted := List.Pairwise.sublist List.filter_sublist h.sorted
  bare r hr := h.bare r (List.mem_of_mem_filter hr)

/-- The segments as the cursor visits them have the same values. -/
theorem view_dropSeparators_join (hrhs : ∀ l ∈ rhs, ValuesOk l)
    (hm : ∀ l ∈ rhs.dropLast, Matched false l) (k : κ) :
    (view (rhs.map dropSeparators) k).join = (view rhs k).join := by
  refine view_join_congr (fun l hl => ?_) fun l hl => ?_
  · exact lookup_dropSeparators_join (hrhs l hl).sorted (hrhs l hl).bare k
  · have hv := hrhs l (List.dropLast_subset _ hl)
    exact (lookup_dropSeparators hv.sorted (hm l hl) hv.bare k).1

/-- The inputs of a merge that drops deletes. -/
theorem visited_values (hrhs : ∀ l ∈ rhs, ValuesOk l) (hm : ∀ l ∈ rhs.dropLast, Matched false l) :
    (∀ l ∈ rhs.map dropSeparators, ValuesOk l) ∧
      ∀ l ∈ (rhs.map dropSeparators).dropLast, Matched false l := by
  refine ⟨fun l hl => ?_, fun l hl => ?_⟩
  · obtain ⟨m, hm, rfl⟩ := List.mem_map.mp hl
    exact (hrhs m hm).dropSeparators
  · rw [← List.map_dropLast] at hl
    obtain ⟨m, hm', rfl⟩ := List.mem_map.mp hl
    have hv := hrhs m (List.dropLast_subset _ hm')
    cases m with
    | nil => trivial
    | cons r m => exact (lookup_dropSeparators hv.sorted (hm _ hm') hv.bare r.key).2.2

/-- Keys before all records of the segments have no value there. -/
theorem view_join_lt (h : ∀ l ∈ rhs, ∀ r ∈ l, k < r.key) : (view rhs k).join = none := by
  rw [view_before fun l hl r hr => h l hl r (List.mem_of_mem_head? hr)]
  split_ifs <;> rfl

/-- A merge goes on. -/
theorem ValuesMerge.dropping (h : ValuesMerge lhs rhs pBtCsr splitKey) :
    Dropping (fun k => ((Level.merging lhs rhs pBtCsr splitKey bFreeOnly).lookup k).join)
      ⟨lhs, rhs.map dropSeparators⟩ := by
  obtain ⟨hin, hm⟩ := visited_values h.segments h.matched
  refine ⟨hin, hm, h.merged, fun o ho l hl r hr => ?_, fun k => ?_⟩
  · obtain ⟨m, hm, rfl⟩ := List.mem_map.mp hl
    have hrm := List.mem_of_mem_filter hr
    rcases e : splitKey with - | s
    · rw [h.split.eof e m hm] at hrm
      exact absurd hrm List.not_mem_nil
    · exact Prod.Lex.toLex_lt_toLex.mpr
        (.inl ((h.split.lhs s e o ho).trans_le (h.split.rhs s e m hm r hrm)))
  · have hview := view_dropSeparators_join h.segments h.matched k
    show (lookupThen (view (rhs.map dropSeparators)) lhs k).join =
      (if splitKey.any fun s => decide (s ≤ k) then view rhs k
      else lookupThen (fun _ => if gapAny rhs then some none else none) lhs k).join
    -- before the split key the segments have no value
    have hbefore : (view rhs k).join = none →
        (lookupThen (view (rhs.map dropSeparators)) lhs k).join =
          (lookupThen (fun _ => if gapAny rhs then some none else none) lhs k).join := by
      intro hnone
      refine lookupThen_join ?_
      rw [hview, hnone]
      split_ifs <;> rfl
    rcases e : splitKey with - | s
    · rw [Option.any_none, if_neg (by decide)]
      refine hbefore ?_
      rw [view_empty (h.split.eof e)]
      rfl
    · rw [Option.any_some]
      by_cases hk : s ≤ k
      · rw [if_pos (decide_eq_true hk), lookupThen_after fun r hr =>
          (h.split.lhs s e r hr).trans_le hk, hview]
      · rw [if_neg (by simpa using hk)]
        exact hbefore (view_join_lt fun l hl r hr =>
          (not_le.mp hk).trans_le (h.split.rhs s e l hl r hr))

/-- A merge of complete segments begins. -/
theorem Dropping.ofRuns (hrhs : ∀ l ∈ rhs, ValuesOk l)
    (hm : ∀ l ∈ rhs.dropLast, Matched false l) :
    Dropping (fun k => (view rhs k).join) ⟨[], rhs.map dropSeparators⟩ := by
  obtain ⟨hin, hm'⟩ := visited_values hrhs hm
  exact ⟨hin, hm', ⟨List.Pairwise.nil, nofun⟩, nofun, view_dropSeparators_join hrhs hm⟩

/-- A merge that stops at an insert is split at its key. -/
theorem Dropping.splitOk {p : Cursor κ V} (hm : Dropping target mw)
    (hp : multiCursorMin true mw.inputs = some p) (hins : p.cur.data.isInsert = true) :
    SplitOk mw.lhs mw.inputs (some p.cur.key) := by
  have hs := multiCursorMin_spec hp
  refine ⟨?_, ?_, nofun⟩
  · rintro s ⟨⟩
    exact hm.lt_cur hp (Data.isSome_of_isInsert hins)
  · rintro s ⟨⟩ l hl
    exact (hm.inputs l hl).sorted.le_of_head fun r hr => place_key_le (hs.le l hl r hr)

variable (bFreeOnly free) in
/-- The values of the level once the merge stops, at its end or before it. -/
theorem sortedWorkLevel_values (hm : Dropping target mw) (hv : Visiting true mw.inputs)
    (hlen : mw.inputs.length ≤ nRight) :
    (∀ lvl ∈ sortedWorkLevel mw true nRight bFreeOnly free, lvl.Values) ∧
      ∀ k, (viewLevels (sortedWorkLevel mw true nRight bFreeOnly free).toList k).join =
        target k := by
  have htake : mw.inputs.take nRight = mw.inputs := List.take_of_length_le hlen
  have hdrop : (mw.inputs.drop nRight).head? = none := by
    rw [List.drop_of_length_le hlen]
    rfl
  unfold sortedWorkLevel
  rw [htake, hdrop]
  rcases hp : multiCursorMin true mw.inputs with - | p
  · have hempty := multiCursorMin_none hp
    obtain ⟨hok, hlookup⟩ := hm.done hp
    simp only
    split_ifs with hdone hnone
    · refine ⟨?_, fun k => ?_⟩
      · rintro lvl ⟨⟩
        exact ⟨hm.inputs, hm.matched, rfl, hok, nofun, nofun, fun _ => hempty⟩
      · rw [Option.toList_some, viewLevels_singleton, ← hlookup k]
        refine lookupThen_join ?_
        rw [gapAny_empty hempty]
        rfl
    · refine ⟨nofun, fun k => ?_⟩
      rw [← hlookup k, List.isEmpty_iff.mp (Bool.and_eq_true_iff.mp hnone).1]
      rfl
    · refine ⟨?_, fun k => ?_⟩
      · rintro lvl ⟨⟩
        exact hok
      · rw [Option.toList_some, viewLevels_singleton]
        exact hlookup k
  · -- the merge stops at a record: its key splits the level
    have hsplit := hm.splitOk hp (Bool.and_eq_true_iff.mp (hv p hp)).1
    refine ⟨?_, fun k => ?_⟩
    · rintro lvl ⟨⟩
      exact ⟨hm.inputs, hm.matched, rfl, hm.lhs, hsplit.lhs, hsplit.rhs, nofun⟩
    · rw [Option.toList_some, viewLevels_singleton, ← hm.tells k]
      show (if (some p.cur.key).any fun s => decide (s ≤ k) then view mw.inputs k
        else lookupThen (fun _ => if gapAny mw.inputs then some none else none) mw.lhs k).join = _
      rw [Option.any_some]
      by_cases hk : p.cur.key ≤ k
      · rw [if_pos (decide_eq_true hk),
          lookupThen_after fun r hr => (hsplit.lhs _ rfl r hr).trans_le hk]
      · rw [if_neg (by simpa using hk)]
        refine lookupThen_join ?_
        rw [view_join_lt fun l hl r hr => (not_le.mp hk).trans_le (hsplit.rhs _ rfl l hl r hr)]
        split_ifs <;> rfl

end Values

end Lsm

end MoVeBench
