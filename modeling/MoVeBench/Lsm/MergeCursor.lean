/-
MoVeBench/Lsm/MergeCursor.lean

The multi-cursor that reads the input of a flush or a merge, and the records
that the merge worker writes.

The inputs of the cursor are the runs from their current records on, the newest
first.  `multiCursorMin` is the winner of the cursor's tree, `multiCursorAdvance`
its movement, and `mergeWorkerStep` one record of a merge.  With
`CURSOR_IGNORE_DELETE` (`bIgnoreDelete`) the cursor stops at inserts only.
-/
import MoVeBench.Lsm.Run

namespace MoVeBench

namespace Lsm

variable {κ V : Type} [LinearOrder κ]

/-! ### The cursor -/

/-- The inputs of a multi-cursor, each from its current record on. -/
abbrev Inputs (κ V : Type) := List (Run κ V)

/-- The place of a record in the order of `sortedDbKeyCompare`: where deletes are
ignored, the boundary of a range alone is a delta larger or smaller than its
key. -/
def place (bIgnoreDelete : Bool) (r : Record κ V) : κ ×ₗ ℤ :=
  toLex (r.key,
    if bIgnoreDelete && !r.data.isSome then
      if r.startDelete && !r.endDelete then 1 else if r.endDelete && !r.startDelete then -1 else 0
    else 0)

/-- A cursor at a record: the inputs that are newer and older than the one that
it reads. -/
structure Cursor (κ V : Type) where
  newer : Inputs κ V
  cur : Record κ V
  rest : Run κ V
  older : Inputs κ V

/-- The inputs once the current record is left. -/
def Cursor.next (p : Cursor κ V) : Inputs κ V := p.newer ++ p.rest :: p.older

/-- `multiCursorDoCompare`, over all inputs: the smallest key wins, of equal keys
the newest one, unless it is a separator or a range boundary and the other is
not. -/
def multiCursorMin (bIgnoreDelete : Bool) : Inputs κ V → Option (Cursor κ V)
  | [] => none
  | [] :: cs => (multiCursorMin bIgnoreDelete cs).map fun p => { p with newer := [] :: p.newer }
  | (r :: l) :: cs =>
      match multiCursorMin bIgnoreDelete cs with
      | none => some ⟨[], r, l, cs⟩
      | some p =>
          if place bIgnoreDelete p.cur < place bIgnoreDelete r ∨
              place bIgnoreDelete p.cur = place bIgnoreDelete r ∧
                r.data.isSome = false ∧ p.cur.data.isSome = true then
            some { p with newer := (r :: l) :: p.newer }
          else some ⟨[], r, l, cs⟩

/-- `mcursorLocationOk`: with deletes ignored the record must be an insert, and no
newer input may be in the middle of a deleted range. -/
def mcursorLocationOk (bIgnoreDelete : Bool) (p : Cursor κ V) : Bool :=
  (!bIgnoreDelete || p.cur.data.isInsert) &&
    p.newer.all fun l =>
      match l with
      | [] => true
      | r :: _ => !r.endDelete ||
          (r.startDelete || !bIgnoreDelete) && decide (r.key = p.cur.key)

/-- What a cursor can be at. -/
structure Cursor.Spec (bIgnoreDelete : Bool) (inputs : Inputs κ V) (p : Cursor κ V) : Prop where
  eq : inputs = p.newer ++ (p.cur :: p.rest) :: p.older
  le : ∀ l ∈ inputs, ∀ r ∈ l.head?, place bIgnoreDelete p.cur ≤ place bIgnoreDelete r
  /-- Of records at the same place the cursor takes one with data. -/
  data : ∀ l ∈ inputs, ∀ r ∈ l.head?, place bIgnoreDelete r = place bIgnoreDelete p.cur →
    r.data.isSome = true → p.cur.data.isSome = true
  /-- A newer one that it does not take has none. -/
  newer : ∀ l ∈ p.newer, ∀ r ∈ l.head?, place bIgnoreDelete r = place bIgnoreDelete p.cur →
    r.data.isSome = false ∧ p.cur.data.isSome = true

section Min

variable {bIgnoreDelete : Bool} {inputs : Inputs κ V} {p : Cursor κ V}

theorem multiCursorMin_none (h : multiCursorMin bIgnoreDelete inputs = none) :
    ∀ l ∈ inputs, l = [] := by
  induction inputs with
  | nil => exact nofun
  | cons l cs ih =>
      cases l with
      | nil =>
          intro m hm
          rcases List.mem_cons.mp hm with rfl | hm
          · rfl
          · exact ih (Option.map_eq_none_iff.mp h) m hm
      | cons r l =>
          rw [multiCursorMin] at h
          split at h
          · cases h
          · split_ifs at h

/-- An input at its end is passed over. -/
theorem Cursor.Spec.skip (hs : p.Spec bIgnoreDelete inputs) :
    Cursor.Spec bIgnoreDelete ([] :: inputs) { p with newer := [] :: p.newer } := by
  refine ⟨by rw [hs.eq]; rfl, fun m hm => ?_, fun m hm => ?_, fun m hm => ?_⟩
  · rcases List.mem_cons.mp hm with rfl | hm
    · exact nofun
    · exact hs.le m hm
  · rcases List.mem_cons.mp hm with rfl | hm
    · exact nofun
    · exact hs.data m hm
  · rcases List.mem_cons.mp hm with rfl | hm
    · exact nofun
    · exact hs.newer m hm

/-- All other inputs are at their end. -/
theorem Cursor.Spec.only {r : Record κ V} {l : Run κ V} (hempty : ∀ m ∈ inputs, m = []) :
    Cursor.Spec bIgnoreDelete ((r :: l) :: inputs) ⟨[], r, l, inputs⟩ := by
  refine ⟨rfl, fun m hm r' hr' => ?_, fun m hm r' hr' => ?_, nofun⟩
  · rcases List.mem_cons.mp hm with rfl | hm
    · cases hr'
      exact le_refl _
    · rw [hempty m hm] at hr'
      cases hr'
  · rcases List.mem_cons.mp hm with rfl | hm
    · cases hr'
      exact fun _ hd => hd
    · rw [hempty m hm] at hr'
      cases hr'

/-- The winner of the older inputs wins. -/
theorem Cursor.Spec.keep {r : Record κ V} {l : Run κ V} (hs : p.Spec bIgnoreDelete inputs)
    (hless : place bIgnoreDelete p.cur < place bIgnoreDelete r ∨
      place bIgnoreDelete p.cur = place bIgnoreDelete r ∧
        r.data.isSome = false ∧ p.cur.data.isSome = true) :
    Cursor.Spec bIgnoreDelete ((r :: l) :: inputs) { p with newer := (r :: l) :: p.newer } := by
  refine ⟨by rw [hs.eq]; rfl, fun m hm r' hr' => ?_, fun m hm r' hr' heq hd => ?_,
    fun m hm r' hr' heq => ?_⟩
  · rcases List.mem_cons.mp hm with rfl | hm
    · cases hr'
      exact hless.elim le_of_lt fun h => h.1.le
    · exact hs.le m hm r' hr'
  · rcases List.mem_cons.mp hm with rfl | hm
    · cases hr'
      rcases hless with hlt | ⟨-, hnone, -⟩
      · exact absurd heq hlt.ne'
      · rw [hnone] at hd
        cases hd
    · exact hs.data m hm r' hr' heq hd
  · rcases List.mem_cons.mp hm with rfl | hm
    · cases hr'
      rcases hless with hlt | ⟨-, hd⟩
      · exact absurd heq hlt.ne'
      · exact hd
    · exact hs.newer m hm r' hr' heq

/-- The newest input wins. -/
theorem Cursor.Spec.take {r : Record κ V} {l : Run κ V} (hs : p.Spec bIgnoreDelete inputs)
    (hless : ¬(place bIgnoreDelete p.cur < place bIgnoreDelete r ∨
      place bIgnoreDelete p.cur = place bIgnoreDelete r ∧
        r.data.isSome = false ∧ p.cur.data.isSome = true)) :
    Cursor.Spec bIgnoreDelete ((r :: l) :: inputs) ⟨[], r, l, inputs⟩ := by
  obtain ⟨hle, hdata⟩ := not_or.mp hless
  refine ⟨rfl, fun m hm r' hr' => ?_, fun m hm r' hr' heq hd => ?_, nofun⟩
  · rcases List.mem_cons.mp hm with rfl | hm
    · cases hr'
      exact le_refl _
    · exact (not_lt.mp hle).trans (hs.le m hm r' hr')
  · rcases List.mem_cons.mp hm with rfl | hm
    · cases hr'
      exact hd
    · -- the winner of the others has data, so this one has
      have hq' : place bIgnoreDelete p.cur = place bIgnoreDelete r :=
        le_antisymm ((hs.le m hm r' hr').trans heq.le) (not_lt.mp hle)
      have hqd := hs.data m hm r' hr' (heq.trans hq'.symm) hd
      by_contra hr
      exact hdata ⟨hq', Bool.eq_false_iff.mpr hr, hqd⟩

theorem multiCursorMin_spec (h : multiCursorMin bIgnoreDelete inputs = some p) :
    p.Spec bIgnoreDelete inputs := by
  induction inputs generalizing p with
  | nil => cases h
  | cons l cs ih =>
      cases l with
      | nil =>
          obtain ⟨q, hq, rfl⟩ := Option.map_eq_some_iff.mp h
          exact (ih hq).skip
      | cons r l =>
          rw [multiCursorMin] at h
          split at h
          · rename_i hnone
            cases h
            exact .only (multiCursorMin_none hnone)
          · rename_i q hq
            split_ifs at h with hless
            · cases h
              exact (ih hq).keep hless
            · cases h
              exact (ih hq).take hless

end Min

/-! ### Moving the cursor -/

/-- The number of records that are left. -/
def size (inputs : Inputs κ V) : ℕ := (inputs.map List.length).sum

theorem size_next {bIgnoreDelete : Bool} {inputs : Inputs κ V} {p : Cursor κ V}
    (h : multiCursorMin bIgnoreDelete inputs = some p) : size p.next < size inputs := by
  rw [(multiCursorMin_spec h).eq]
  unfold size Cursor.next
  simp

/-- `multiCursorAdvance`, from inputs whose first records are still to be looked
at: records up to the place `cached` of the cached key are left behind, and so
are those that the cursor does not visit. -/
def multiCursorAdvance (bIgnoreDelete : Bool) (cached : Option (κ ×ₗ ℤ)) (inputs : Inputs κ V) :
    Inputs κ V :=
  match _h : multiCursorMin bIgnoreDelete inputs with
  | none => inputs
  | some p =>
      if cached.any fun c => decide (place bIgnoreDelete p.cur ≤ c) then
        multiCursorAdvance bIgnoreDelete cached p.next
      else if mcursorLocationOk bIgnoreDelete p then inputs
      else multiCursorAdvance bIgnoreDelete (some (place bIgnoreDelete p.cur)) p.next
termination_by size inputs
decreasing_by
  · exact size_next _h
  · exact size_next _h

/-- The records of a run after a place. -/
def dropTo (bIgnoreDelete : Bool) (c : κ ×ₗ ℤ) (l : Run κ V) : Run κ V :=
  l.dropWhile fun r => decide (place bIgnoreDelete r ≤ c)

/-- All inputs after the place of the cursor. -/
def dropCur (bIgnoreDelete : Bool) (inputs : Inputs κ V) (p : Cursor κ V) : Inputs κ V :=
  inputs.map (dropTo bIgnoreDelete (place bIgnoreDelete p.cur))

section Advance

variable {bIgnoreDelete : Bool} {inputs : Inputs κ V} {p : Cursor κ V} {c : κ ×ₗ ℤ}

theorem dropTo_cons_le {r : Record κ V} {l : Run κ V} (h : place bIgnoreDelete r ≤ c) :
    dropTo bIgnoreDelete c (r :: l) = dropTo bIgnoreDelete c l :=
  List.dropWhile_cons_of_pos (decide_eq_true h)

theorem dropTo_eq_self {l : Run κ V} (h : ∀ r ∈ l.head?, c < place bIgnoreDelete r) :
    dropTo bIgnoreDelete c l = l := by
  cases l with
  | nil => rfl
  | cons r l =>
      refine List.dropWhile_cons_of_neg fun hle => ?_
      exact absurd (of_decide_eq_true hle) (not_le.mpr (h r rfl))

/-- Leaving the cursor's record behind does not change what comes after. -/
theorem Cursor.Spec.next_dropTo (h : p.Spec bIgnoreDelete inputs)
    (hc : place bIgnoreDelete p.cur ≤ c) :
    p.next.map (dropTo bIgnoreDelete c) = inputs.map (dropTo bIgnoreDelete c) := by
  rw [h.eq]
  unfold Cursor.next
  simp only [List.map_append, List.map_cons, dropTo_cons_le hc]

theorem multiCursorAdvance_eof {cached : Option (κ ×ₗ ℤ)}
    (h : multiCursorMin bIgnoreDelete inputs = none) :
    multiCursorAdvance bIgnoreDelete cached inputs = inputs := by
  rw [multiCursorAdvance]
  split
  · rfl
  · rename_i p hp
    rw [h] at hp
    cases hp

theorem multiCursorAdvance_at {cached : Option (κ ×ₗ ℤ)}
    (h : multiCursorMin bIgnoreDelete inputs = some p) :
    multiCursorAdvance bIgnoreDelete cached inputs =
      if cached.any fun c => decide (place bIgnoreDelete p.cur ≤ c) then
        multiCursorAdvance bIgnoreDelete cached p.next
      else if mcursorLocationOk bIgnoreDelete p then inputs
      else multiCursorAdvance bIgnoreDelete (some (place bIgnoreDelete p.cur)) p.next := by
  conv_lhs => rw [multiCursorAdvance]
  split
  · rename_i hnone
    rw [h] at hnone
    cases hnone
  · rename_i q hq
    rw [h] at hq
    cases hq
    rfl

/-- The cursor skips the records up to the cached key in every input. -/
theorem multiCursorAdvance_cached (c : κ ×ₗ ℤ) (inputs : Inputs κ V) :
    multiCursorAdvance bIgnoreDelete (some c) inputs =
      multiCursorAdvance bIgnoreDelete none (inputs.map (dropTo bIgnoreDelete c)) := by
  induction h : size inputs using Nat.strong_induction_on generalizing inputs with
  | h n ih =>
      subst h
      rcases hmin : multiCursorMin bIgnoreDelete inputs with - | p
      · have hempty := multiCursorMin_none hmin
        have hsame : inputs.map (dropTo bIgnoreDelete c) = inputs := by
          rw [List.map_congr_left (g := id) fun l hl => ?_, List.map_id]
          rw [hempty l hl]
          rfl
        rw [hsame, multiCursorAdvance_eof hmin, multiCursorAdvance_eof hmin]
      · have hs := multiCursorMin_spec hmin
        rw [multiCursorAdvance_at hmin, Option.any_some]
        by_cases hle : place bIgnoreDelete p.cur ≤ c
        · rw [if_pos (decide_eq_true hle), ih _ (size_next hmin) _ rfl, hs.next_dropTo hle]
        · -- all inputs are behind the cached key
          have hsame : inputs.map (dropTo bIgnoreDelete c) = inputs := by
            rw [List.map_congr_left (g := id) fun l hl => ?_, List.map_id]
            exact dropTo_eq_self fun r hr => (not_le.mp hle).trans_le (hs.le l hl r hr)
          rw [if_neg fun h => hle (of_decide_eq_true h), hsame, multiCursorAdvance_at hmin]
          rfl

/-- `lsmMCursorNext`: all inputs move past the place of the current record. -/
theorem multiCursorAdvance_next (h : multiCursorMin bIgnoreDelete inputs = some p) :
    multiCursorAdvance bIgnoreDelete (some (place bIgnoreDelete p.cur)) p.next =
      multiCursorAdvance bIgnoreDelete none (dropCur bIgnoreDelete inputs p) := by
  rw [multiCursorAdvance_cached, (multiCursorMin_spec h).next_dropTo le_rfl]
  rfl

theorem size_map_dropTo (c : κ ×ₗ ℤ) (inputs : Inputs κ V) :
    size (inputs.map (dropTo bIgnoreDelete c)) ≤ size inputs := by
  unfold size
  rw [List.map_map]
  refine List.sum_le_sum fun l _ => ?_
  exact (List.dropWhile_sublist _).length_le

theorem size_dropCur (h : multiCursorMin bIgnoreDelete inputs = some p) :
    size (dropCur bIgnoreDelete inputs p) < size inputs := by
  refine lt_of_le_of_lt ?_ (size_next h)
  unfold dropCur
  rw [← (multiCursorMin_spec h).next_dropTo le_rfl]
  exact size_map_dropTo _ _

/-- **What the cursor comes to**: the end, or a record that it visits.  What every
skipped place keeps still holds there. -/
theorem multiCursorAdvance_induct {P : Inputs κ V → Prop} (h : P inputs)
    (hskip : ∀ inputs p, P inputs → multiCursorMin bIgnoreDelete inputs = some p →
      mcursorLocationOk bIgnoreDelete p = false → P (dropCur bIgnoreDelete inputs p)) :
    P (multiCursorAdvance bIgnoreDelete none inputs) ∧
      size (multiCursorAdvance bIgnoreDelete none inputs) ≤ size inputs ∧
      ∀ p, multiCursorMin bIgnoreDelete (multiCursorAdvance bIgnoreDelete none inputs) = some p →
        mcursorLocationOk bIgnoreDelete p = true := by
  induction hn : size inputs using Nat.strong_induction_on generalizing inputs with
  | h n ih =>
      subst hn
      rcases hmin : multiCursorMin bIgnoreDelete inputs with - | p
      · rw [multiCursorAdvance_eof hmin]
        refine ⟨h, le_rfl, fun p hp => ?_⟩
        rw [hmin] at hp
        cases hp
      · rw [multiCursorAdvance_at hmin, if_neg (by simp)]
        split_ifs with hok
        · refine ⟨h, le_rfl, fun q hq => ?_⟩
          rw [hmin] at hq
          cases hq
          exact hok
        · rw [multiCursorAdvance_next hmin]
          have hlt := size_dropCur hmin
          obtain ⟨hP, hle, hmin'⟩ :=
            ih _ hlt (hskip inputs p h hmin (Bool.eq_false_iff.mpr hok)) rfl
          exact ⟨hP, hle.trans hlt.le, hmin'⟩

theorem size_multiCursorAdvance (bIgnoreDelete : Bool) (inputs : Inputs κ V) :
    size (multiCursorAdvance bIgnoreDelete none inputs) ≤ size inputs :=
  (multiCursorAdvance_induct (P := fun _ => True) trivial fun _ _ _ _ _ => trivial).2.1

end Advance

/-! ### The records of a merge -/

/-- The flags of a record of the same key are added, and its data, if there is
none yet. -/
def Record.combine (f h : Record κ V) : Record κ V :=
  { f with
    data := if f.data.isSome then f.data else h.data
    startDelete := f.startDelete || h.startDelete
    endDelete := f.endDelete || h.endDelete }

/-- The loop of `mergeRangeDeletes` over the inputs before `iKey`. -/
def mergeNewer (k : κ) : Inputs κ V → Record κ V → Record κ V
  | [], f => f
  | [] :: cs, f => mergeNewer k cs f
  | (h :: _) :: cs, f => mergeNewer k cs (if h.key = k then f.combine h else f)

/-- The loop over the inputs after `iKey`: it ends at the first one that deletes
the key by a range. -/
def mergeOlder (k : κ) : Inputs κ V → Record κ V → Option (Record κ V)
  | [], f => some f
  | [] :: cs, f => mergeOlder k cs f
  | (h :: _) :: cs, f =>
      let f' := if h.key = k then f.combine h else f
      if h.endDelete && decide (k < h.key) then
        if f'.data.isSome then some { f' with startDelete := true, endDelete := true } else none
      else mergeOlder k cs f'

/-- `mergeRangeDeletes`; `none` where all flags are cleared. -/
def mergeRangeDeletes (bIgnoreDelete : Bool) (p : Cursor κ V) : Option (Record κ V) :=
  if bIgnoreDelete then some { p.cur with startDelete := false, endDelete := false }
  else
    match mergeOlder p.cur.key p.older (mergeNewer p.cur.key p.newer p.cur) with
    | none => none
    | some f =>
        match f.data with
        | .pointDelete => if f.startDelete && f.endDelete then none else some f
        | _ => some f

/-- The record that `mergeWorkerStep` writes, if it does: not one without a flag,
and a separator only if it has a new pointer (`bPtr`). -/
def mergeWorkerOutput (bPtr : κ → Bool) (bIgnoreDelete : Bool) (p : Cursor κ V) :
    Option (Record κ V) :=
  match mergeRangeDeletes bIgnoreDelete p with
  | none => none
  | some f =>
      if !f.data.isSome && !f.startDelete && !f.endDelete && !f.separator then none
      else if f.separator && !bPtr f.key then none
      else some f

/-- A merge: the records written so far, and the inputs. -/
structure MergeWorker (κ V : Type) where
  lhs : Run κ V
  inputs : Inputs κ V

/-- `mergeWorkerStep`, up to `n` times; a merge that is done stays as it is. -/
def mergeWorkerSteps (bPtr : κ → Bool) (bIgnoreDelete : Bool) :
    ℕ → MergeWorker κ V → MergeWorker κ V
  | 0, mw => mw
  | n + 1, mw =>
      match multiCursorMin bIgnoreDelete mw.inputs with
      | none => mw
      | some p => mergeWorkerSteps bPtr bIgnoreDelete n
          { lhs := mw.lhs ++ (mergeWorkerOutput bPtr bIgnoreDelete p).toList
            inputs := multiCursorAdvance bIgnoreDelete (some (place bIgnoreDelete p.cur)) p.next }

/-! #### What the flags say -/

/-- The gap before the first record once the key `k` is past. -/
def gapAfter (k : κ) : Run κ V → Bool
  | [] => false
  | h :: _ => if h.key = k then h.startDelete else h.endDelete

/-- A run deletes the key `k` by a range. -/
def covers (k : κ) : Run κ V → Bool
  | [] => false
  | h :: _ => decide (h.key ≠ k) && h.endDelete

section Flags

variable {k : κ} {l : Run κ V} {cs : Inputs κ V} {f : Record κ V}

theorem covers_gap (h : covers k l = true) : l.gap false = true ∧ gapAfter k l = true := by
  cases l with
  | nil => cases h
  | cons r l =>
      simp only [covers, ne_eq, decide_not, Bool.and_eq_true, Bool.not_eq_true',
        decide_eq_false_iff_not] at h
      refine ⟨h.2, ?_⟩
      show (if r.key = k then r.startDelete else r.endDelete) = true
      rw [if_neg h.1]
      exact h.2

theorem covers_any (h : cs.any (covers k) = true) :
    Run.gapAny cs = true ∧ cs.any (gapAfter k) = true := by
  obtain ⟨l, hl, hc⟩ := List.any_eq_true.mp h
  exact ⟨List.any_eq_true.mpr ⟨l, hl, (covers_gap hc).1⟩,
    List.any_eq_true.mpr ⟨l, hl, (covers_gap hc).2⟩⟩

/-- A run without data for the key can only delete it. -/
theorem lookup_noData (hle : ∀ r ∈ l.head?, k ≤ r.key)
    (hdata : ∀ r ∈ l.head?, r.key = k → r.data.isSome = false) :
    l.lookup k = if covers k l then some none else none := by
  cases l with
  | nil => rfl
  | cons r l =>
      by_cases hk : r.key = k
      · have hnone := Data.decides_eq_none (hdata r rfl hk)
        rw [← hk, Run.lookup_cons_self, hnone]
        simp [covers]
      · have hlt : k < r.key := lt_of_le_of_ne (hle r rfl) (Ne.symm hk)
        rw [Run.lookup_before (by rintro r' ⟨⟩; exact hlt)]
        show (if r.endDelete = true then _ else _) =
          if (decide (r.key ≠ k) && r.endDelete) = true then _ else _
        rw [decide_eq_true hk, Bool.true_and]

omit [LinearOrder κ] in
theorem combine_data {h : Record κ V} (hdata : h.data.isSome = true → f.data.isSome = true) :
    (f.combine h).data = f.data := by
  show (if f.data.isSome = true then f.data else h.data) = f.data
  cases hf : f.data.isSome with
  | true => rfl
  | false =>
      have hh : h.data.isSome = false := by
        cases e : h.data.isSome with
        | true => rw [hdata e] at hf; cases hf
        | false => rfl
      rw [if_neg (by decide), Data.eq_none hh, Data.eq_none hf]

/-- The newer inputs add their boundaries. -/
theorem mergeNewer_spec (hdata : ∀ l ∈ cs, ∀ r ∈ l.head?, r.key = k → r.data.isSome = false)
    (hcov : cs.any (covers k) = false) :
    (mergeNewer k cs f).key = f.key ∧ (mergeNewer k cs f).data = f.data ∧
      (mergeNewer k cs f).separator = f.separator ∧
      (mergeNewer k cs f).startDelete = (f.startDelete || cs.any (gapAfter k)) ∧
      (mergeNewer k cs f).endDelete = (f.endDelete || Run.gapAny cs) := by
  induction cs generalizing f with
  | nil => simp [mergeNewer, Run.gapAny]
  | cons l cs ih =>
      rw [List.any_cons, Bool.or_eq_false_iff] at hcov
      have ih' := fun f => ih (f := f) (fun m hm => hdata m (List.mem_cons_of_mem _ hm)) hcov.2
      cases l with
      | nil =>
          obtain ⟨hkey, hd, hsep, hs, he⟩ := ih' f
          exact ⟨hkey, hd, hsep, hs, he⟩
      | cons r l =>
          rw [mergeNewer]
          by_cases hk : r.key = k
          · rw [if_pos hk]
            obtain ⟨hkey, hd, hsep, hs, he⟩ := ih' (f.combine r)
            have hr := hdata (r :: l) List.mem_cons_self r rfl hk
            refine ⟨hkey, hd.trans (combine_data fun h => ?_), hsep, ?_, ?_⟩
            · rw [hr] at h
              cases h
            · rw [hs, List.any_cons, ← Bool.or_assoc]
              simp [Record.combine, gapAfter, hk]
            · rw [he]
              simp [Record.combine, Run.gapAny, Run.gap, Bool.or_assoc]
          · rw [if_neg hk]
            obtain ⟨hkey, hd, hsep, hs, he⟩ := ih' f
            have hend : r.endDelete = false := by
              have hc := hcov.1
              simp only [covers, ne_eq, hk, not_false_eq_true, decide_true, Bool.true_and] at hc
              exact hc
            refine ⟨hkey, hd, hsep, ?_, ?_⟩
            · rw [hs, List.any_cons]
              simp [gapAfter, hk, hend]
            · rw [he]
              simp [Run.gapAny, Run.gap, hend]

/-- What an older input adds that does not delete the key. -/
theorem addOlder_spec {r : Record κ V} {l : Run κ V}
    (hc : ¬(r.endDelete && decide (k < r.key)) = true) (hle : k ≤ r.key)
    (hdata : r.key = k → r.data.isSome = true → f.data.isSome = true) :
    (if r.key = k then f.combine r else f).key = f.key ∧
      (if r.key = k then f.combine r else f).data = f.data ∧
      (if r.key = k then f.combine r else f).separator = f.separator ∧
      (if r.key = k then f.combine r else f).startDelete =
        (f.startDelete || gapAfter k (r :: l)) ∧
      (if r.key = k then f.combine r else f).endDelete = (f.endDelete || Run.gap false (r :: l)) ∧
      covers k (r :: l) = false := by
  by_cases hk : r.key = k
  · rw [if_pos hk]
    refine ⟨rfl, combine_data (hdata hk), rfl, ?_, rfl, ?_⟩
    · simp [hk, Record.combine, gapAfter]
    · simp [covers, hk]
  · have hend : r.endDelete = false := by
      have hlt := lt_of_le_of_ne hle (Ne.symm hk)
      simpa [hlt] using hc
    rw [if_neg hk]
    refine ⟨rfl, rfl, rfl, ?_, ?_, ?_⟩
    · simp [gapAfter, hk, hend]
    · simp [Run.gap, hend]
    · simp [covers, hend]

/-- The older inputs add theirs; if one of them deletes the key, a record with
data becomes the end of one range and the start of another. -/
theorem mergeOlder_spec (hle : ∀ l ∈ cs, ∀ r ∈ l.head?, k ≤ r.key)
    (hdata : ∀ l ∈ cs, ∀ r ∈ l.head?, r.key = k → r.data.isSome = true → f.data.isSome = true) :
    (mergeOlder k cs f = none ∧ f.data.isSome = false ∧ cs.any (covers k) = true) ∨
    ∃ g, mergeOlder k cs f = some g ∧ g.key = f.key ∧ g.data = f.data ∧
      g.separator = f.separator ∧
      g.startDelete = (f.startDelete || cs.any (gapAfter k)) ∧
      g.endDelete = (f.endDelete || Run.gapAny cs) ∧
      (f.data.isSome = false → cs.any (covers k) = false) := by
  induction cs generalizing f with
  | nil => exact .inr ⟨f, rfl, rfl, rfl, rfl, by simp, by simp [Run.gapAny], fun _ => rfl⟩
  | cons l cs ih =>
      cases l with
      | nil =>
          rcases ih (f := f) (fun m hm => hle m (List.mem_cons_of_mem _ hm))
            (fun m hm => hdata m (List.mem_cons_of_mem _ hm)) with ⟨hn, hd, hc⟩ | hg
          · exact .inl ⟨hn, hd, hc⟩
          · exact .inr hg
      | cons r l =>
          by_cases hc : r.endDelete && decide (k < r.key)
          · -- this input deletes the key
            rw [Bool.and_eq_true, decide_eq_true_eq] at hc
            have hk : r.key ≠ k := hc.2.ne'
            have hcov : covers k (r :: l) = true := by simp [covers, hk, hc.1]
            have hany : ((r :: l) :: cs).any (covers k) = true := by
              rw [List.any_cons, hcov, Bool.true_or]
            obtain ⟨hgap, hafter⟩ := covers_any hany
            have hstep : mergeOlder k ((r :: l) :: cs) f =
                if f.data.isSome then some { f with startDelete := true, endDelete := true }
                else none := by
              rw [mergeOlder]
              simp only [if_neg hk, hc.1, decide_eq_true hc.2, Bool.and_self, if_true]
            rw [hstep]
            cases hf : f.data.isSome with
            | false => exact .inl ⟨rfl, rfl, hany⟩
            | true =>
                refine .inr ⟨_, rfl, rfl, rfl, rfl, ?_, ?_, nofun⟩
                · rw [hafter, Bool.or_true]
                · rw [hgap, Bool.or_true]
          · -- it adds its boundary, if it has one at the key
            have hstep : mergeOlder k ((r :: l) :: cs) f =
                mergeOlder k cs (if r.key = k then f.combine r else f) := by
              rw [mergeOlder]
              exact if_neg hc
            obtain ⟨hkey, hdata', hsep, hst, he, hcov⟩ := addOlder_spec (l := l) hc
              (hle (r :: l) List.mem_cons_self r rfl) (hdata (r :: l) List.mem_cons_self r rfl)
            rw [hstep, List.any_cons, hcov, Bool.false_or]
            rcases ih (f := if r.key = k then f.combine r else f)
              (fun m hm => hle m (List.mem_cons_of_mem _ hm))
              (fun m hm r' hr' hk hd => by
                rw [hdata']
                exact hdata m (List.mem_cons_of_mem _ hm) r' hr' hk hd) with
              ⟨hn, hd, hany⟩ | ⟨g, hg, hgk, hgd, hgs, hgst, hge, hgc⟩
            · rw [hdata'] at hd
              exact .inl ⟨hn, hd, hany⟩
            · rw [hdata'] at hgd hgc
              refine .inr ⟨g, hg, hgk.trans hkey, hgd, hgs.trans hsep, ?_, ?_, hgc⟩
              · rw [hgst, hst, List.any_cons, Bool.or_assoc]
              · rw [hge, he]
                show _ = (f.endDelete || ((r :: l) :: cs).any (Run.gap false))
                rw [List.any_cons, Bool.or_assoc]
                rfl

end Flags

end Lsm

end MoVeBench
