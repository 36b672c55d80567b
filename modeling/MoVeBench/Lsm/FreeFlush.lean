/-
MoVeBench/Lsm/FreeFlush.lean

The worker's free list is written into a level.

`sortedNewToplevel` reads the list as an input of the merge, while the blocks that the
merge allocates and frees are noted in a temporary list.  The temporary list then replaces
the worker's, and the free list is what it would be if the changes had been made to the old
one (`sortedNewToplevel_kept`).
-/
import MoVeBench.Lsm.FreeRecords
import MoVeBench.Lsm.FreeWalk
import MoVeBench.Lsm.Compaction

namespace MoVeBench

namespace Lsm

open Run

namespace FreeFlush

open FreeRecords

variable {κ V : Type} [LinearOrder κ]

/-! ### The list in the levels -/

/-- The records of a level. -/
def records : Level (Key κ) (Value V) → Run (Key κ) (Value V)
  | .run lhs _ => lhs
  | .merging lhs rhs _ _ _ => lhs ++ rhs.flatten

/-- The block of a system key. -/
def block? (k : Key κ) : Option ℕ :=
  match ofLex k with
  | .inl _ => none
  | .inr iBlk => some (OrderDual.ofDual iBlk)

/-- The id that is stored for a block. -/
def storedId (levels : List (Level (Key κ) (Value V))) (iBlk : ℕ) : Option ℤ :=
  match (viewLevels levels (sysKey iBlk)).join with
  | some (.inr iId) => some iId
  | _ => none

/-- The blocks that the levels have records of. -/
def storedBlocks (levels : List (Level (Key κ) (Value V))) : List ℕ :=
  ((levels.flatMap records).filterMap fun r => block? r.key).toFinset.sort (· ≤ ·)

/-- The entries that are stored, in order. -/
def storedList (levels : List (Level (Key κ) (Value V))) : SortedMap ℕ ℤ where
  entries := (storedBlocks levels).filterMap fun iBlk => (storedId levels iBlk).map (iBlk, ·)
  sorted := by
    have hkeys : (storedBlocks levels).Pairwise (· < ·) := (Finset.sortedLT_sort _).pairwise
    refine hkeys.filterMap _ fun a b hab x hx y hy => ?_
    obtain ⟨_, -, rfl⟩ := Option.map_eq_some_iff.mp hx
    obtain ⟨_, -, rfl⟩ := Option.map_eq_some_iff.mp hy
    exact hab

section Stored

variable {levels : List (Level (Key κ) (Value V))} {lvl : Level (Key κ) (Value V)}
  {l : Run (Key κ) (Value V)} {k : Key κ} {v : Value V} {iBlk : ℕ} {iId : ℤ}

/-- A value that a run has is that of a record. -/
theorem exists_of_lookup {below : Key κ → Option (Option (Value V))}
    (h : (lookupThen below l k).join = some v) :
    (∃ r ∈ l, r.key = k) ∨ (below k).join = some v := by
  induction l with
  | nil => exact .inr h
  | cons r l ih =>
      rw [lookupThen] at h
      split_ifs at h with hlt hend heq
      · cases h
      · cases h
      · exact .inl ⟨r, List.mem_cons_self, heq.symm⟩
      · refine (ih h).imp_left fun hrec => ?_
        obtain ⟨r', hr', hk⟩ := hrec
        exact ⟨r', List.mem_cons_of_mem _ hr', hk⟩

theorem exists_of_view {runs : Inputs (Key κ) (Value V)} (h : (view runs k).join = some v) :
    ∃ l ∈ runs, ∃ r ∈ l, r.key = k := by
  rw [Option.join_eq_some_iff] at h
  obtain ⟨l, hl, hlook⟩ := List.exists_of_findSome?_eq_some h
  have hjoin : (lookupThen (fun _ => none) l k).join = some v :=
    (congrArg Option.join hlook).trans rfl
  exact ⟨l, hl, (exists_of_lookup hjoin).resolve_right nofun⟩

theorem exists_of_level (h : (lvl.lookup k).join = some v) : ∃ r ∈ records lvl, r.key = k := by
  cases lvl with
  | run lhs b => exact (exists_of_lookup h).resolve_right nofun
  | merging lhs rhs pBtCsr splitKey b =>
      rw [Level.lookup] at h
      split_ifs at h
      · obtain ⟨l, hl, r, hr, hk⟩ := exists_of_view h
        exact ⟨r, List.mem_append_right _ (List.mem_flatten.mpr ⟨l, hl, hr⟩), hk⟩
      · rcases exists_of_lookup h with ⟨r, hr, hk⟩ | hnone
        · exact ⟨r, List.mem_append_left _ hr, hk⟩
        · cases hnone
      · rcases exists_of_lookup h with ⟨r, hr, hk⟩ | hnone
        · exact ⟨r, List.mem_append_left _ hr, hk⟩
        · cases hnone

theorem mem_storedBlocks (h : storedId levels iBlk = some iId) : iBlk ∈ storedBlocks levels := by
  unfold storedId at h
  split at h
  · rename_i iId' hview
    rw [Option.join_eq_some_iff] at hview
    obtain ⟨lvl, hlvl, hlook⟩ := List.exists_of_findSome?_eq_some hview
    obtain ⟨r, hr, hkey⟩ := exists_of_level (congrArg Option.join hlook)
    unfold storedBlocks
    rw [Finset.mem_sort, List.mem_toFinset, List.mem_filterMap]
    exact ⟨r, List.mem_flatMap.mpr ⟨lvl, hlvl, hr⟩, by rw [hkey]; rfl⟩
  · cases h

/-- The list has the ids that are stored. -/
theorem get?_storedList (iBlk : ℕ) : (storedList levels).get? iBlk = storedId levels iBlk := by
  refine Option.ext fun iId => ?_
  rw [SortedMap.get?_eq_some_iff]
  show (iBlk, iId) ∈ (storedBlocks levels).filterMap _ ↔ _
  rw [List.mem_filterMap]
  constructor
  · rintro ⟨b, -, hb⟩
    obtain ⟨x, hx, hpair⟩ := Option.map_eq_some_iff.mp hb
    obtain ⟨rfl, rfl⟩ := Prod.mk.inj hpair
    exact hx
  · intro h
    exact ⟨iBlk, mem_storedBlocks h, by rw [h]; rfl⟩

end Stored

/-! ### Merges that keep deletes or drop them -/

section MergeOf

variable {κ V : Type} [LinearOrder κ] {b : Bool} {target : κ → Option (Option V)}
  {mw : MergeWorker κ V} {inputs news : Inputs κ V} {lhs : Run κ V} {p : Cursor κ V}

/-- A merge in progress, at a record that it visits: what is written and the inputs say
`target`, or have its values where deletes are ignored. -/
structure MergeOf (b : Bool) (target : κ → Option (Option V)) (mw : MergeWorker κ V) : Prop where
  keep : b = false → Merging target mw
  drop : b = true → Dropping (fun k => (target k).join) mw
  visiting : Visiting b mw.inputs

theorem MergeOf.sorted (h : MergeOf b target mw) : ∀ l ∈ mw.inputs, Sorted l := by
  intro l hl
  cases b with
  | false => exact (h.keep rfl).inputs.sorted l hl
  | true => exact ((h.drop rfl).inputs l hl).sorted

/-- A cursor is set up. -/
theorem MergeOf.advance (hkeep : b = false → Merging target ⟨lhs, inputs⟩)
    (hdrop : b = true → Dropping (fun k => (target k).join) ⟨lhs, inputs⟩) :
    MergeOf b target ⟨lhs, multiCursorAdvance b none inputs⟩ := by
  cases b with
  | false => exact ⟨fun _ => (hkeep rfl).advance.1, nofun, (hkeep rfl).advance.2⟩
  | true => exact ⟨nofun, fun _ => (hdrop rfl).advance.1, (hdrop rfl).advance.2⟩

theorem MergeOf.steps (bPtr : κ → Bool) (n : ℕ) (h : MergeOf b target mw) :
    MergeOf b target (mergeWorkerSteps bPtr b n mw) := by
  cases b with
  | false =>
      obtain ⟨hm, hv⟩ := (h.keep rfl).steps bPtr n h.visiting
      exact ⟨fun _ => hm, nofun, hv⟩
  | true =>
      obtain ⟨hm, hv⟩ := (h.drop rfl).steps bPtr n h.visiting
      exact ⟨nofun, fun _ => hm, hv⟩

/-- The end of a merge. -/
theorem MergeOf.done (h : MergeOf b target mw) (hdone : multiCursorMin b mw.inputs = none) (k : κ) :
    (b = false → lookup mw.lhs k = target k) ∧ (lookup mw.lhs k).join = (target k).join := by
  cases b with
  | false =>
      have hk := ((h.keep rfl).done hdone).2 k
      exact ⟨fun _ => hk, by rw [hk]⟩
  | true => exact ⟨nofun, ((h.drop rfl).done hdone).2 k⟩

/-- A merge of complete runs begins. -/
theorem MergeOf.start (b : Bool) (hok : ∀ l ∈ inputs, RunOk l) (hsep : SepLast inputs) :
    MergeOf b (view inputs) ⟨[], multiCursorAdvance b none inputs⟩ :=
  MergeOf.advance (fun _ => Merging.start hok hsep) fun _ =>
    ⟨fun l hl => ⟨(hok l hl).sorted, (hok l hl).bare⟩,
      fun l hl => (hok l (List.dropLast_subset _ hl)).matched, ⟨List.Pairwise.nil, nofun⟩,
      nofun, fun _ => rfl⟩

/-- What is written is before the record that the cursor is at. -/
theorem MergeOf.lt_cur (h : MergeOf b target mw) (hp : multiCursorMin b mw.inputs = some p) :
    ∀ o ∈ mw.lhs, o.key < p.cur.key := by
  cases b with
  | false =>
      intro o ho
      exact (h.keep rfl).before o ho _ (multiCursorMin_spec hp).around.mem_cur p.cur
        List.mem_cons_self
  | true =>
      exact (h.drop rfl).lt_cur hp
        (Data.isSome_of_isInsert (Bool.and_eq_true_iff.mp (h.visiting p hp)).1)

/-- What a step writes is at the key of the cursor. -/
theorem MergeOf.output_key (h : MergeOf b target mw) (hp : multiCursorMin b mw.inputs = some p)
    (bPtr : κ → Bool) : ∀ f ∈ mergeWorkerOutput bPtr b p, f.key = p.cur.key := by
  cases b with
  | false =>
      rcases mergeStep bPtr (h.keep rfl).inputs hp (h.visiting p hp) with
        ⟨hnone, -, -⟩ | ⟨f, hf, hkey, -⟩
      · rw [hnone]
        exact nofun
      · rw [hf]
        rintro _ ⟨⟩
        exact hkey
  | true =>
      obtain ⟨f, hf, hkey, -⟩ := dropStep bPtr (fun l hl => ((h.drop rfl).inputs l hl).bare) hp
        (h.visiting p hp)
      rw [hf]
      rintro _ ⟨⟩
      exact hkey

/-- **Newer inputs are added to a merge**, all behind what is written: they come first. -/
theorem MergeOf.insert (h : MergeOf b target ⟨lhs, inputs⟩) (hnews : ∀ l ∈ news, RunOk l)
    (hplain : ∀ l ∈ news, ∀ r ∈ l, r.separator = false)
    (hbefore : ∀ o ∈ lhs, ∀ l ∈ news, ∀ r ∈ l, o.key < r.key)
    (hgap : b = false → gapAny inputs = false) :
    MergeOf b (fun k => lookupThen (view (news ++ inputs)) lhs k)
      ⟨lhs, multiCursorAdvance b none (news ++ inputs)⟩ := by
  refine MergeOf.advance (fun hb => ?_) fun hb => ?_
  · have hm := h.keep hb
    have hgap' : gapAny (news ++ inputs) = false := by
      rw [gapAny_append, gapAny_complete hnews, hgap hb]
      rfl
    have hmatched := hm.matched
    have hfirst := hm.gap
    simp only [hgap hb] at hmatched hfirst
    refine ⟨⟨fun l hl => ?_, fun l hl => ?_, fun l hl => ?_, ?_⟩, hm.sorted, hm.bare,
      fun o ho l hl r hr => ?_, ?_, ?_, fun _ => rfl⟩
    · exact (List.mem_append.mp hl).elim (fun hl => (hnews l hl).sorted) (hm.inputs.sorted l)
    · exact (List.mem_append.mp hl).elim (fun hl => (hnews l hl).matched) (hm.inputs.matched l)
    · exact (List.mem_append.mp hl).elim (fun hl => (hnews l hl).bare) (hm.inputs.bare l)
    · refine List.pairwise_append.mpr ⟨?_, hm.inputs.sepLast, fun l hl m _ => .inl (hplain l hl)⟩
      exact List.Pairwise.imp_of_mem (R := fun _ _ => True) (fun hl _ _ => .inl (hplain _ hl))
        (List.pairwise_of_forall fun _ _ => trivial)
    · exact (List.mem_append.mp hl).elim (fun hl => hbefore o ho l hl r hr)
        fun hl => hm.before o ho l hl r hr
    · show Matched (gapAny (news ++ inputs)) lhs
      rw [hgap']
      exact hmatched
    · show Run.gap (gapAny (news ++ inputs)) lhs = false
      rw [hgap']
      exact hfirst
  · have hd := h.drop hb
    refine ⟨fun l hl => ?_, fun l hl => ?_, hd.lhs, fun o ho l hl r hr => ?_, fun _ => rfl⟩
    · exact (List.mem_append.mp hl).elim (fun hl => ⟨(hnews l hl).sorted, (hnews l hl).bare⟩)
        (hd.inputs l)
    · cases inputs with
      | nil =>
          simp only [List.append_nil] at hl
          exact (hnews l (List.dropLast_subset _ hl)).matched
      | cons m inputs =>
          rw [List.dropLast_append_of_ne_nil (List.cons_ne_nil _ _)] at hl
          exact (List.mem_append.mp hl).elim (fun hl => (hnews l hl).matched) (hd.matched l)
    · exact (List.mem_append.mp hl).elim
        (fun hl => Prod.Lex.toLex_lt_toLex.mpr (.inl (hbefore o ho l hl r hr)))
        fun hl => hd.before o ho l hl r hr

/-- A merge of which some inputs have echoes. -/
def EchoMerge (b : Bool) (target : κ → Option (Option V)) (mw : MergeWorker κ V) : Prop :=
  ∃ inputs, List.Forall₂ Echoes mw.inputs inputs ∧ MergeOf b target ⟨mw.lhs, inputs⟩

/-- The cursor is set up. -/
theorem EchoMerge.advance {raw : Inputs κ V} (hs : ∀ l ∈ inputs, Sorted l)
    (hraw : List.Forall₂ Echoes raw inputs)
    (h : MergeOf b target ⟨lhs, multiCursorAdvance b none inputs⟩) :
    EchoMerge b target ⟨lhs, multiCursorAdvance b none raw⟩ :=
  ⟨_, echoes_advance hs (hraw.imp fun _ _ h => .inl h), h⟩

theorem EchoMerge.steps (bPtr : κ → Bool) (n : ℕ) (h : EchoMerge b target mw) :
    EchoMerge b target (mergeWorkerSteps bPtr b n mw) := by
  obtain ⟨inputs, hinputs, hm⟩ := h
  obtain ⟨hlhs, hsteps⟩ := echoes_steps (b := b) bPtr n mw.lhs hm.sorted hinputs
  refine ⟨_, hsteps, ?_⟩
  rw [hlhs]
  exact hm.steps bPtr n

theorem EchoMerge.done (h : EchoMerge b target mw) (hdone : multiCursorMin b mw.inputs = none)
    (k : κ) : (b = false → lookup mw.lhs k = target k) ∧
      (lookup mw.lhs k).join = (target k).join := by
  obtain ⟨inputs, hinputs, hm⟩ := h
  refine hm.done ?_ k
  rcases multiCursorMin_echoes (b := b) hinputs with ⟨-, hnone⟩ | ⟨p, -, hp, -⟩
  · exact hnone
  · rw [hdone] at hp
    cases hp

end MergeOf

/-! ### The changes -/

/-- Blocks that are allocated and freed, one after the other. -/
def appendAll (f : FreeList) (changes : List (ℕ × ℤ)) : FreeList :=
  changes.foldl (fun f e => freelistAppend f e.1 e.2) f

section Changes

variable {f f' : FreeList} {changes : List (ℕ × ℤ)} {iBlk : ℕ}

theorem appendAll_append (l m : List (ℕ × ℤ)) :
    appendAll f (l ++ m) = appendAll (appendAll f l) m := List.foldl_append

/-- While a temporary list is used, the worker's list stays. -/
theorem appendAll_temp (changes : List (ℕ × ℤ)) (h : f.temp.isSome) :
    (appendAll f changes).stored = f.stored ∧ (appendAll f changes).worker = f.worker ∧
      (appendAll f changes).temp.isSome := by
  induction changes generalizing f with
  | nil => exact ⟨rfl, rfl, h⟩
  | cons e changes ih =>
      obtain ⟨temp, htemp⟩ := Option.isSome_iff_exists.mp h
      have happ : freelistAppend f e.1 e.2 = { f with temp := some (temp.insert e.1 e.2) } := by
        rw [freelistAppend, htemp]
      have := ih (f := freelistAppend f e.1 e.2) (by rw [happ]; rfl)
      rw [happ] at this
      rw [appendAll, List.foldl_cons, happ]
      exact this

/-- Otherwise it takes the changes. -/
theorem appendAll_worker (changes : List (ℕ × ℤ)) (h : f.temp = none) :
    (appendAll f changes).stored = f.stored ∧ (appendAll f changes).temp = none := by
  induction changes generalizing f with
  | nil => exact ⟨rfl, h⟩
  | cons e changes ih =>
      have happ : freelistAppend f e.1 e.2 = { f with worker := f.worker.insert e.1 e.2 } := by
        rw [freelistAppend, h]
      rw [appendAll, List.foldl_cons, happ]
      exact ih (f := { f with worker := f.worker.insert e.1 e.2 }) h

theorem blocksOk_appendAll (h : BlocksOk f.worker) (hchanges : ∀ e ∈ changes, 0 < e.1) :
    BlocksOk (appendAll f changes).worker := by
  induction changes generalizing f with
  | nil => exact h
  | cons e changes ih =>
      have hstep : BlocksOk (freelistAppend f e.1 e.2).worker := by
        unfold freelistAppend
        cases f.temp with
        | some temp => exact h
        | none =>
            intro e' he'
            rcases SortedMap.mem_insertEntry.mp he' with rfl | ⟨he', -⟩
            · exact hchanges e List.mem_cons_self
            · exact h e' he'
      exact ih hstep fun e' he' => hchanges e' (List.mem_cons_of_mem _ he')

/-- What the changes lead to depends on what is free alone. -/
theorem iId?_appendAll (h : ∀ b, f.iId? b = f'.iId? b) :
    ∀ b, (appendAll f changes).iId? b = (appendAll f' changes).iId? b := by
  induction changes generalizing f f' with
  | nil => exact h
  | cons e changes ih =>
      refine ih fun b => ?_
      rw [iId?_append, iId?_append, h]

/-- The calls of the walk depend on what is free alone. -/
theorem walk_congr {τ : Type} (hf : ∀ e ∈ f.stored.entries, 0 ≤ e.2)
    (hf' : ∀ e ∈ f'.stored.entries, 0 ≤ e.2) (h : ∀ b, f.iId? b = f'.iId? b) (bReverse : Bool)
    (x : τ → ℕ × ℤ → τ × Bool) (t : τ) :
    FreeWalk.lsmWalkFreelist f bReverse x t = FreeWalk.lsmWalkFreelist f' bReverse x t := by
  have hwalk : Lsm.lsmWalkFreelist f bReverse = Lsm.lsmWalkFreelist f' bReverse :=
    (FreeWalk.inOrder_walk f).eq_of_mem (FreeWalk.inOrder_walk f') fun e => by
      rw [show e = (e.1, e.2) from rfl, mem_lsmWalkFreelist, mem_lsmWalkFreelist, h]
  rw [FreeWalk.walk_visit hf, FreeWalk.walk_visit hf', hwalk]

end Changes

/-! ### Writing a level -/

/-- The levels and the free list of a worker snapshot. -/
structure Snapshot (κ V : Type) where
  levels : List (Level (Key κ) (Value V))
  freelist : SortedMap ℕ ℤ

/-- The list as `lsmWalkFreelist` sees it. -/
def Snapshot.freeList (s : Snapshot κ V) : FreeList := ⟨storedList s.levels, s.freelist, none⟩

/-- A merge, and the free list while it runs; `log` is a record of the changes. -/
structure Writing (κ V : Type) where
  mw : MergeWorker (Key κ) (Value V)
  freelist : FreeList
  log : List (ℕ × ℤ)

/-- Blocks are allocated and freed. -/
def Writing.change (w : Writing κ V) (changes : List (ℕ × ℤ)) : Writing κ V :=
  { w with freelist := appendAll w.freelist changes, log := w.log ++ changes }

section Write

variable (bPtr : Key κ → Bool) (bIgnoreDelete : Bool)

/-- `mergeWorkerStep`: the changes are made for the record that is written. -/
def mergeWorkerStep (changes : List (ℕ × ℤ)) (w : Writing κ V) : Writing κ V :=
  let w' := { w with mw := mergeWorkerSteps bPtr bIgnoreDelete 1 w.mw }
  if w'.mw.lhs.length = w.mw.lhs.length then w' else w'.change changes

/-- The loop of `sortedNewToplevel`; `changes i` are made by the `i`-th step. -/
def writeLoop (changes : ℕ → List (ℕ × ℤ)) : ℕ → ℕ → Writing κ V → Writing κ V
  | 0, _, w => w
  | n + 1, i, w =>
      writeLoop changes n (i + 1) (mergeWorkerStep bPtr bIgnoreDelete (changes i) w)

/-- The inputs of `sortedNewToplevel`: the trees, the free list, and the level that is replaced
or the separators of the next one. -/
def toplevelInputs (trees : Inputs (Key κ) (Value V)) (pBtCsr : Option (Run (Key κ) (Value V)))
    (s : Snapshot κ V) (free : Run (Key κ) (Value V)) : Inputs (Key κ) (Value V) :=
  trees ++ free :: (((freelistTop s.levels).map dropSeparators).toList ++ pBtCsr.toList)

/-- The levels below the new one. -/
def toplevelRest (s : Snapshot κ V) : List (Level (Key κ) (Value V)) :=
  if (freelistTop s.levels).isSome then s.levels.tail else s.levels

/-- `sortedNewToplevel`; `changes'` are made by `lsmFsSortedFinish` and `lsmFsSortedDelete`.
The snapshot, and all changes. -/
def sortedNewToplevel (trees : Inputs (Key κ) (Value V)) (pBtCsr : Option (Run (Key κ) (Value V)))
    (bFreeOnly : Bool) (changes : ℕ → List (ℕ × ℤ)) (changes' : List (ℕ × ℤ))
    (s : Snapshot κ V) : Snapshot κ V × List (ℕ × ℤ) :=
  let inputs := toplevelInputs trees pBtCsr s (freeRun s.freelist.entries)
  let w := writeLoop bPtr s.levels.isEmpty changes (size inputs) 0
    ⟨⟨[], multiCursorAdvance s.levels.isEmpty none inputs⟩,
      { s.freeList with temp := some SortedMap.empty }, []⟩
  if w.mw.lhs.isEmpty then (s, w.log)
  else
    let w := w.change changes'
    (⟨.run w.mw.lhs bFreeOnly :: toplevelRest s, w.freelist.temp.getD SortedMap.empty⟩, w.log)

end Write

section Read

variable {s : Snapshot κ V} {levels levels' : List (Level (Key κ) (Value V))}
  {l : Run (Key κ) (Value V)} {runs : Inputs (Key κ) (Value V)} {b : Bool} {iBlk : ℕ}

/-- A segment of a free-list-only level: what is not a separator has a system key. -/
structure SysSegment (l : Run (Key κ) (Value V)) : Prop extends RunOk l where
  system : ∀ r ∈ l, r.separator = false → isSystem r.key = true

theorem lt_of_topic {k k' : Key κ} (hk : isSystem k = false) (hk' : isSystem k' = true) :
    k < k' := by
  rcases hx : ofLex k with x | x
  · rcases hy : ofLex k' with y | y
    · rw [isSystem, hy] at hk'
      cases hk'
    · have hlt := Sum.Lex.inl_lt_inr (β := ℕᵒᵈ) x y
      rwa [← hx, ← hy] at hlt
  · rw [isSystem, hx] at hk
    cases hk

/-- User records say nothing about blocks. -/
theorem view_user (h : ∀ l ∈ runs, ∀ r ∈ l, isSystem r.key = false) (iBlk : ℕ) :
    view runs (sysKey iBlk) = none := by
  unfold view
  rw [List.findSome?_eq_none_iff]
  intro l hl
  exact lookupThen_after fun r hr => lt_of_topic (h l hl r hr) rfl

theorem view_cons (l : Run (Key κ) (Value V)) (runs : Inputs (Key κ) (Value V)) (k : Key κ) :
    view (l :: runs) k = (lookup l k).or (view runs k) := by
  unfold view
  rw [List.findSome?_cons]
  cases lookup l k <;> rfl

theorem viewLevels_cons (lvl : Level (Key κ) (Value V)) (k : Key κ) :
    viewLevels (lvl :: levels) k = (lvl.lookup k).or (viewLevels levels k) := by
  unfold viewLevels
  rw [List.findSome?_cons]
  cases lvl.lookup k <;> rfl

/-- The segment as the cursor visits it. -/
theorem SysSegment.visited (h : SysSegment l) : RunOk (dropSeparators l) ∧
    (∀ r ∈ dropSeparators l, r.separator = false ∧ isSystem r.key = true) ∧
    ∀ k, lookup (dropSeparators l) k = lookup l k := by
  have hdrop := lookup_dropSeparators h.sorted h.matched h.bare
  obtain ⟨-, hgap, hmatched⟩ := hdrop (sysKey 0)
  refine ⟨⟨List.Pairwise.sublist List.filter_sublist h.sorted, hmatched,
    fun r hr => h.bare r (List.mem_of_mem_filter hr), hgap.trans h.gap⟩, fun r hr => ?_,
    fun k => (hdrop k).1⟩
  obtain ⟨hmem, hsep⟩ := List.mem_filter.mp hr
  have hsep' : r.separator = false := by simpa using hsep
  exact ⟨hsep', h.system r hmem hsep'⟩

/-- Levels that have the entries of the list over what was stored. -/
theorem storedId_flush {worker : SortedMap ℕ ℤ}
    (h : (viewLevels levels' (sysKey iBlk)).join =
      (((worker.get? iBlk).map fun iId => if iId < 0 then none else some (.inr iId)).or
        (viewLevels levels (sysKey iBlk))).join) :
    storedId levels' iBlk = layer worker (storedId levels iBlk) iBlk := by
  unfold layer
  rw [storedId, h]
  rcases worker.get? iBlk with - | iId
  · rfl
  · by_cases hneg : iId < 0
    · simp [hneg]
    · simp [hneg]

end Read

/-- The ids that are stored are ids of snapshots. -/
def StoredOk (levels : List (Level (Key κ) (Value V))) : Prop :=
  ∀ iBlk iId, storedId levels iBlk = some iId → 0 ≤ iId

section Stored

variable {levels levels' : List (Level (Key κ) (Value V))} {iBlk : ℕ} {worker : SortedMap ℕ ℤ}

theorem StoredOk.layer (h : StoredOk levels) :
    Lsm.layer (storedList levels) none iBlk = storedId levels iBlk := by
  unfold Lsm.layer
  rw [get?_storedList]
  rcases hid : storedId levels iBlk with - | iId
  · rfl
  · exact if_neg (not_lt.mpr (h iBlk iId hid))

theorem StoredOk.entries (h : StoredOk levels) :
    ∀ e ∈ (storedList levels).entries, 0 ≤ e.2 := by
  intro e he
  refine h e.1 e.2 ?_
  rw [← get?_storedList]
  exact (storedList levels).get?_eq_some_iff.mpr he

/-- Ids that are not negative are written. -/
theorem StoredOk.flush (h : StoredOk levels)
    (heq : ∀ iBlk, storedId levels' iBlk = Lsm.layer worker (storedId levels iBlk) iBlk) :
    StoredOk levels' := by
  intro iBlk iId hid
  rw [heq] at hid
  unfold Lsm.layer at hid
  split at hid
  · split_ifs at hid with hneg
    rw [← Option.some.inj hid]
    exact not_lt.mp hneg
  · exact h iBlk iId hid

end Stored

/-! ### A new top level -/

/-- The free list is what it was, with the changes of `log`. -/
structure Kept (s s' : Snapshot κ V) (log : List (ℕ × ℤ)) : Prop where
  free : ∀ iBlk, s'.freeList.iId? iBlk = (appendAll s.freeList log).iId? iBlk
  stored : StoredOk s'.levels

section Toplevel

variable {bPtr : Key κ → Bool} {b : Bool} {w : Writing κ V} {changes : ℕ → List (ℕ × ℤ)}
  {f : FreeList} {s : Snapshot κ V} {trees : Inputs (Key κ) (Value V)}
  {pBtCsr : Option (Run (Key κ) (Value V))}

theorem Kept.refl (h : StoredOk s.levels) : Kept s s [] := ⟨fun _ => rfl, h⟩

/-- The list is what it was before the merge, with the changes so far. -/
def Noted (f : FreeList) (w : Writing κ V) : Prop :=
  ∀ iBlk, w.freelist.iId? iBlk = (appendAll f w.log).iId? iBlk

omit [LinearOrder κ] in
theorem Noted.change (h : Noted f w) (l : List (ℕ × ℤ)) : Noted f (w.change l) := by
  intro iBlk
  show (appendAll w.freelist l).iId? iBlk = (appendAll f (w.log ++ l)).iId? iBlk
  rw [appendAll_append]
  exact iId?_appendAll h iBlk

omit [LinearOrder κ] in
/-- The temporary list replaces the worker's, which the levels have now. -/
theorem Noted.swap {stored temp : SortedMap ℕ ℤ} (h : Noted f w)
    (htemp : w.freelist.temp = some temp)
    (hlayer : ∀ iBlk, layer stored none iBlk =
      layer w.freelist.worker (layer w.freelist.stored none iBlk) iBlk) (iBlk : ℕ) :
    (⟨stored, temp, none⟩ : FreeList).iId? iBlk = (appendAll f w.log).iId? iBlk := by
  rw [← h iBlk]
  unfold FreeList.iId?
  rw [htemp]
  simp only
  rw [hlayer]

/-- What a step does: one of the merge, and changes if a record is written. -/
theorem mergeWorkerStep_cases (bPtr : Key κ → Bool) (b : Bool) (l : List (ℕ × ℤ))
    (w : Writing κ V) : ∃ l', (l' = [] ∨ l' = l) ∧
      ((mergeWorkerSteps bPtr b 1 w.mw).lhs.length = w.mw.lhs.length → l' = []) ∧
      mergeWorkerStep bPtr b l w = { w with mw := mergeWorkerSteps bPtr b 1 w.mw }.change l' := by
  unfold mergeWorkerStep
  simp only
  split_ifs with hsame
  · refine ⟨[], .inl rfl, fun _ => rfl, ?_⟩
    unfold Writing.change
    rw [List.append_nil]
    rfl
  · exact ⟨l, .inr rfl, fun h => absurd h hsame, rfl⟩

theorem mergeWorkerSteps_succ (bPtr : Key κ → Bool) (b : Bool) (n : ℕ)
    (mw : MergeWorker (Key κ) (Value V)) :
    mergeWorkerSteps bPtr b (n + 1) mw =
      mergeWorkerSteps bPtr b n (mergeWorkerSteps bPtr b 1 mw) := by
  rw [mergeWorkerSteps, mergeWorkerSteps]
  rcases hp : multiCursorMin b mw.inputs with - | p
  · simp only
    rw [mergeWorkerSteps_eof hp]
  · rfl

/-- Records are only added. -/
theorem prefix_steps (bPtr : Key κ → Bool) (b : Bool) (n : ℕ)
    (mw : MergeWorker (Key κ) (Value V)) : mw.lhs <+: (mergeWorkerSteps bPtr b n mw).lhs := by
  induction n generalizing mw with
  | zero => exact List.prefix_rfl
  | succ n ih =>
      rw [mergeWorkerSteps]
      rcases multiCursorMin b mw.inputs with - | p
      · exact List.prefix_rfl
      · have hadd : mw.lhs <+: mw.lhs ++ (mergeWorkerOutput bPtr b p).toList :=
          List.prefix_append _ _
        exact hadd.trans (ih ⟨mw.lhs ++ (mergeWorkerOutput bPtr b p).toList, _⟩)

/-- The loop is the merge, and changes. -/
theorem writeLoop_spec (bPtr : Key κ → Bool) (changes : ℕ → List (ℕ × ℤ)) (n i : ℕ)
    (hw : w.freelist.temp.isSome) (hnoted : Noted f w) : ∃ w', writeLoop bPtr b changes n i w = w' ∧
      w'.mw = mergeWorkerSteps bPtr b n w.mw ∧ Noted f w' ∧
      w'.freelist.stored = w.freelist.stored ∧ w'.freelist.worker = w.freelist.worker ∧
      w'.freelist.temp.isSome ∧ (w'.mw.lhs = [] → w'.log = w.log) := by
  induction n generalizing i w with
  | zero => exact ⟨w, rfl, rfl, hnoted, rfl, rfl, hw, fun _ => rfl⟩
  | succ n ih =>
      obtain ⟨l, -, hl, hstep⟩ := mergeWorkerStep_cases bPtr b (changes i) w
      obtain ⟨hstored, hworker, htemp⟩ := appendAll_temp l hw
      have hchange : Noted f ({ w with mw := mergeWorkerSteps bPtr b 1 w.mw }.change l) :=
        Noted.change (w := { w with mw := mergeWorkerSteps bPtr b 1 w.mw }) hnoted l
      obtain ⟨w', hw', hmw, hnoted', hs', hwk', ht', hlog⟩ := ih (i + 1) htemp hchange
      refine ⟨w', ?_, ?_, hnoted', hs'.trans hstored, hwk'.trans hworker, ht', fun hnil => ?_⟩
      · rw [writeLoop, hstep]
        exact hw'
      · exact hmw.trans (mergeWorkerSteps_succ bPtr b n w.mw).symm
      · -- nothing is written by this step either
        have hpre := prefix_steps bPtr b n (mergeWorkerSteps bPtr b 1 w.mw)
        have hfirst := prefix_steps bPtr b 1 w.mw
        rw [hmw] at hnil
        rw [show (mergeWorkerSteps bPtr b n (mergeWorkerSteps bPtr b 1 w.mw)).lhs = [] from hnil,
          List.prefix_nil] at hpre
        rw [hpre, List.prefix_nil] at hfirst
        rw [hlog (by rw [hmw]; exact hnil)]
        show w.log ++ l = w.log
        rw [hl (by rw [hpre, hfirst]), List.append_nil]

omit [LinearOrder κ] in
/-- The input of the free list has echoes, the others none. -/
theorem echoes_freeRun {news olds : Inputs (Key κ) (Value V)} {worker : SortedMap ℕ ℤ}
    (h : BlocksOk worker) : List.Forall₂ Echoes (news ++ freeRun worker.entries :: olds)
      (news ++ sysRun worker.entries :: olds) :=
  List.rel_append (List.forall₂_same.mpr fun _ _ => .inl rfl)
    (.cons (.inr (freeRun_eq h)) (List.forall₂_same.mpr fun _ _ => .inl rfl))

/-- What the new level is made from. -/
structure ToplevelOk (trees : Inputs (Key κ) (Value V)) (pBtCsr : Option (Run (Key κ) (Value V)))
    (s : Snapshot κ V) : Prop where
  tree : ∀ t ∈ trees, TreeOk t
  user : ∀ t ∈ trees, ∀ r ∈ t, isSystem r.key = false
  separators : ∀ l ∈ pBtCsr, SepRun l
  next : s.levels = [] → pBtCsr = none
  top : ∀ l ∈ freelistTop s.levels, SysSegment l
  blocks : BlocksOk s.freelist
  stored : StoredOk s.levels

theorem ToplevelOk.inputs (h : ToplevelOk trees pBtCsr s) :
    (∀ l ∈ toplevelInputs trees pBtCsr s (sysRun s.freelist.entries), RunOk l) ∧
      SepLast (toplevelInputs trees pBtCsr s (sysRun s.freelist.entries)) := by
  have htop : ∀ l ∈ ((freelistTop s.levels).map dropSeparators).toList,
      RunOk l ∧ ∀ r ∈ l, r.separator = false := by
    intro l hl
    obtain ⟨m, hm, rfl⟩ := Option.map_eq_some_iff.mp (Option.mem_toList.mp hl)
    obtain ⟨hok, hmem, -⟩ := (h.top m hm).visited
    exact ⟨hok, fun r hr => (hmem r hr).1⟩
  have hplain : ∀ l ∈ trees ++ sysRun s.freelist.entries ::
      ((freelistTop s.levels).map dropSeparators).toList,
      RunOk l ∧ ∀ r ∈ l, r.separator = false := by
    intro l hl
    rcases List.mem_append.mp hl with hl | hl
    · exact ⟨(h.tree l hl).toRunOk, (h.tree l hl).separator⟩
    · rcases List.mem_cons.mp hl with rfl | hl
      · exact ⟨sysRun_runOk h.blocks, fun r hr => (mem_sysRun h.blocks hr).2⟩
      · exact htop l hl
  have hsplit : toplevelInputs trees pBtCsr s (sysRun s.freelist.entries) =
      (trees ++ sysRun s.freelist.entries ::
        ((freelistTop s.levels).map dropSeparators).toList) ++ pBtCsr.toList := by
    rw [toplevelInputs, List.append_assoc]
    rfl
  rw [hsplit]
  refine ⟨fun l hl => ?_, List.pairwise_append.mpr ⟨?_, ?_, fun l hl m _ => .inl (hplain l hl).2⟩⟩
  · rcases List.mem_append.mp hl with hl | hl
    · exact (hplain l hl).1
    · have hsep := h.separators l (Option.mem_toList.mp hl)
      exact ⟨hsep.sorted, hsep.matched, hsep.bare, hsep.gap⟩
  · exact List.Pairwise.imp_of_mem (R := fun _ _ => True) (fun hl _ _ => .inl (hplain _ hl).2)
      (List.pairwise_of_forall fun _ _ => trivial)
  · cases pBtCsr with
    | none => exact List.Pairwise.nil
    | some l => exact List.pairwise_singleton _ _

/-- What they say about a block, and the level that is replaced. -/
theorem ToplevelOk.view (h : ToplevelOk trees pBtCsr s) (iBlk : ℕ) :
    (Run.view (toplevelInputs trees pBtCsr s (sysRun s.freelist.entries)) (sysKey iBlk)).or
        (viewLevels (toplevelRest s) (sysKey iBlk)) =
      ((s.freelist.get? iBlk).map fun iId => if iId < 0 then none else some (.inr iId)).or
        (viewLevels s.levels (sysKey iBlk)) := by
  have htop : (Run.view ((freelistTop s.levels).map dropSeparators).toList (sysKey iBlk)).or
      (viewLevels (toplevelRest s) (sysKey iBlk)) = viewLevels s.levels (sysKey iBlk) := by
    unfold toplevelRest
    rcases hfree : freelistTop s.levels with - | l
    · rfl
    · -- the level is the first one
      obtain ⟨rest, hlevels⟩ : ∃ rest, s.levels = .run l true :: rest := by
        unfold freelistTop at hfree
        split at hfree
        · rename_i lhs rest hlevels
          obtain rfl := Option.some.inj hfree
          exact ⟨rest, hlevels⟩
        · cases hfree
      rw [Option.map_some, hlevels]
      show (Run.view [dropSeparators l] (sysKey iBlk)).or (viewLevels rest (sysKey iBlk)) = _
      rw [viewLevels_cons, view_cons, show Run.view [] (sysKey iBlk) = none from rfl,
        Option.or_none, (h.top l hfree).visited.2.2]
      rfl
  rw [toplevelInputs, view_append, view_user h.user, Option.none_or, view_cons,
    view_separators h.separators, lookup_sysRun h.blocks, Option.or_assoc, htop]

/-- What the records that are written say about a block. -/
theorem ToplevelOk.lookup_lhs (h : ToplevelOk trees pBtCsr s) (bPtr : Key κ → Bool)
    {raw : Inputs (Key κ) (Value V)}
    (hraw : raw = toplevelInputs trees pBtCsr s (freeRun s.freelist.entries))
    {mw : MergeWorker (Key κ) (Value V)} (hmw : mw = mergeWorkerSteps bPtr s.levels.isEmpty
      (size raw) ⟨[], multiCursorAdvance s.levels.isEmpty none raw⟩) (iBlk : ℕ) :
    ((lookup mw.lhs (sysKey iBlk)).or (viewLevels (toplevelRest s) (sysKey iBlk))).join =
      (((s.freelist.get? iBlk).map fun iId => if iId < 0 then none else some (.inr iId)).or
        (viewLevels s.levels (sysKey iBlk))).join := by
  obtain ⟨hok, hlast⟩ := h.inputs
  have hraw' : List.Forall₂ Echoes raw
      (toplevelInputs trees pBtCsr s (sysRun s.freelist.entries)) := by
    rw [hraw]
    exact echoes_freeRun h.blocks
  have hmerge := (EchoMerge.advance (fun l hl => (hok l hl).sorted) hraw'
    (MergeOf.start s.levels.isEmpty hok hlast)).steps bPtr (size raw)
  rw [← hmw] at hmerge
  obtain ⟨hkeep, hdrop⟩ := hmerge.done (by
    rw [hmw]
    exact mergeWorkerSteps_done _ (size_multiCursorAdvance _ _)) (sysKey iBlk)
  rw [← h.view]
  cases hempty : s.levels.isEmpty with
  | false => rw [hkeep hempty]
  | true =>
      -- there is no level below
      have hrest : viewLevels (toplevelRest s) (sysKey iBlk) = none := by
        rw [toplevelRest, List.isEmpty_iff.mp hempty]
        rfl
      rw [hrest, Option.or_none, Option.or_none, hdrop]

/-- **A new top level** keeps the free list, with the changes made while it is written. -/
theorem sortedNewToplevel_kept (h : ToplevelOk trees pBtCsr s) (bPtr : Key κ → Bool)
    (bFreeOnly : Bool) (changes : ℕ → List (ℕ × ℤ)) (changes' : List (ℕ × ℤ)) :
    Kept s (sortedNewToplevel bPtr trees pBtCsr bFreeOnly changes changes' s).1
      (sortedNewToplevel bPtr trees pBtCsr bFreeOnly changes changes' s).2 := by
  let raw := toplevelInputs trees pBtCsr s (freeRun s.freelist.entries)
  let w₀ : Writing κ V := ⟨⟨[], multiCursorAdvance s.levels.isEmpty none raw⟩,
    { s.freeList with temp := some SortedMap.empty }, []⟩
  obtain ⟨w, hw, hmw, hnoted, hstored, hworker, htemp, hlog⟩ := writeLoop_spec (w := w₀)
    (f := s.freeList) (b := s.levels.isEmpty) bPtr changes (size raw) 0 rfl
    fun iBlk => iId?_beginTemp rfl iBlk
  have heq : sortedNewToplevel bPtr trees pBtCsr bFreeOnly changes changes' s =
      if w.mw.lhs.isEmpty then (s, w.log)
      else (⟨.run w.mw.lhs bFreeOnly :: toplevelRest s,
        (w.change changes').freelist.temp.getD SortedMap.empty⟩, (w.change changes').log) := by
    rw [← hw]
    rfl
  rw [heq]
  by_cases hnil : w.mw.lhs.isEmpty = true
  · rw [if_pos hnil, hlog (List.isEmpty_iff.mp hnil)]
    exact Kept.refl h.stored
  · rw [if_neg hnil]
    obtain ⟨hs', hw', ht'⟩ := appendAll_temp changes' htemp
    obtain ⟨temp, htemp'⟩ := Option.isSome_iff_exists.mp ht'
    have hid : ∀ iBlk, storedId (.run w.mw.lhs bFreeOnly :: toplevelRest s) iBlk =
        layer s.freelist (storedId s.levels iBlk) iBlk := by
      intro iBlk
      refine storedId_flush ?_
      rw [viewLevels_cons]
      exact h.lookup_lhs bPtr rfl hmw iBlk
    have hstored' := h.stored.flush hid
    have hlayer : ∀ iBlk,
        layer (storedList (.run w.mw.lhs bFreeOnly :: toplevelRest s)) none iBlk =
          layer (w.change changes').freelist.worker
            (layer (w.change changes').freelist.stored none iBlk) iBlk := by
      intro iBlk
      show _ = layer (appendAll w.freelist changes').worker
        (layer (appendAll w.freelist changes').stored none iBlk) iBlk
      rw [hs', hw', hstored, hworker, hstored'.layer, hid]
      exact congrArg (layer s.freelist · iBlk) h.stored.layer.symm
    refine ⟨fun iBlk => ?_, hstored'⟩
    rw [← Noted.swap (hnoted.change changes') htemp' hlayer iBlk]
    show (⟨_, (appendAll w.freelist changes').temp.getD SortedMap.empty, none⟩ :
      FreeList).iId? iBlk = _
    rw [htemp']
    rfl

end Toplevel

end FreeFlush

end Lsm

end MoVeBench
