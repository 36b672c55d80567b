/-
MoVeBench/Lsm/Run.lean

Sorted runs of records, and what they say about a key.

A run is the user content of an in-memory tree or of a segment: records in the
order of their keys.  A range of keys that is deleted from all older runs is
marked at its ends: the record before the range has `LSM_START_DELETE`, the one
after it `LSM_END_DELETE`.  Records with a system key (free-list entries) come
after all user records and are not part of the model.
-/
import Mathlib

namespace MoVeBench

namespace Lsm

/-! ### Records -/

/-- `LSM_INSERT` with its value, `LSM_POINT_DELETE`, or neither. -/
inductive Data (V : Type)
  | none
  | pointDelete
  | insert (v : V)

namespace Data

variable {V : Type}

/-- `eType & (LSM_INSERT|LSM_POINT_DELETE)`. -/
def isSome : Data V → Bool
  | none => false
  | pointDelete => true
  | insert _ => true

/-- `eType & LSM_INSERT`. -/
def isInsert : Data V → Bool
  | none => false
  | pointDelete => false
  | insert _ => true

/-- What is said about the key: nothing, that it is deleted, or its value. -/
def decides : Data V → Option (Option V)
  | none => .none
  | pointDelete => some .none
  | insert v => some (some v)

@[simp] theorem decides_none : (none : Data V).decides = .none := rfl

theorem decides_eq_none {d : Data V} (h : d.isSome = false) : d.decides = .none := by
  cases d with
  | none => rfl
  | pointDelete => cases h
  | insert v => cases h

theorem eq_none {d : Data V} (h : d.isSome = false) : d = .none := by
  cases d with
  | none => rfl
  | pointDelete => cases h
  | insert v => cases h

theorem isSome_of_isInsert {d : Data V} (h : d.isInsert = true) : d.isSome = true := by
  cases d with
  | none => cases h
  | pointDelete => cases h
  | insert v => rfl

end Data

/-- A record, with the bits of its `eType`. -/
structure Record (κ V : Type) where
  key : κ
  data : Data V
  /-- `LSM_START_DELETE`: the keys after this one are deleted. -/
  startDelete : Bool
  /-- `LSM_END_DELETE`: the keys before this one are deleted. -/
  endDelete : Bool
  /-- `LSM_SEPARATOR`. -/
  separator : Bool

/-- A run of records. -/
abbrev Run (κ V : Type) := List (Record κ V)

namespace Run

/-- Whether the keys before the first record are deleted; `b` where there is
none. -/
def gap {κ V : Type} (b : Bool) : Run κ V → Bool
  | [] => b
  | r :: _ => r.endDelete

/-- The two ends of every range are there, and `b` says whether a range is open
after the last record. -/
def Matched {κ V : Type} (b : Bool) : Run κ V → Prop
  | [] => True
  | r :: l => r.startDelete = gap b l ∧ Matched b l

/-- The records are in the order of their keys. -/
def Sorted {κ V : Type} [LT κ] (l : Run κ V) : Prop := l.Pairwise fun a b => a.key < b.key

/-- Separator keys carry no data and no range boundary. -/
def Bare {κ V : Type} (l : Run κ V) : Prop :=
  ∀ r ∈ l, r.separator = true → r.data = .none ∧ r.startDelete = false ∧ r.endDelete = false

section Lookup

variable {κ V : Type} [LinearOrder κ]

/-- What a run says about a key: the record of the key decides; between two
records the later one tells whether the key is deleted.  After the last record
`below` is asked. -/
def lookupThen (below : κ → Option (Option V)) : Run κ V → κ → Option (Option V)
  | [], k => below k
  | r :: l, k =>
      if k < r.key then if r.endDelete then some none else none
      else if k = r.key then r.data.decides
      else lookupThen below l k

def lookup (l : Run κ V) (k : κ) : Option (Option V) := lookupThen (fun _ => none) l k

/-- What several runs say, the newest first. -/
def view (runs : List (Run κ V)) (k : κ) : Option (Option V) := runs.findSome? fun l => l.lookup k

/-- Whether some run has a range open before its first record. -/
def gapAny (runs : List (Run κ V)) : Bool := runs.any (gap false)

variable {below below' : κ → Option (Option V)} {l m : Run κ V} {r : Record κ V} {k : κ} {b : Bool}
  {runs : List (Run κ V)}

@[simp] theorem lookup_nil : lookup ([] : Run κ V) k = none := rfl

theorem lookupThen_append : lookupThen below (l ++ m) k = lookupThen (lookupThen below m) l k := by
  induction l with
  | nil => rfl
  | cons r l ih =>
      rw [List.cons_append, lookupThen, lookupThen, ih]

theorem lookupThen_congr (h : below k = below' k) :
    lookupThen below l k = lookupThen below' l k := by
  induction l with
  | nil => exact h
  | cons r l ih => rw [lookupThen, lookupThen, ih]

/-- Only what comes after the run matters for a key after all its records. -/
theorem lookupThen_after (h : ∀ r ∈ l, r.key < k) : lookupThen below l k = below k := by
  induction l with
  | nil => rfl
  | cons r l ih =>
      have hr := h r List.mem_cons_self
      rw [lookupThen, if_neg (not_lt.mpr hr.le), if_neg hr.ne',
        ih fun r' h' => h r' (List.mem_cons_of_mem _ h')]

theorem lookup_before (h : ∀ r ∈ l.head?, k < r.key) :
    l.lookup k = if l.gap false then some none else none := by
  cases l with
  | nil => rfl
  | cons r l => exact if_pos (h r rfl)

theorem lookup_cons_self : lookup (r :: l) r.key = r.data.decides := by
  unfold lookup
  rw [lookupThen, if_neg (lt_irrefl _), if_pos rfl]

theorem lookup_cons_after (h : r.key < k) : lookup (r :: l) k = lookup l k := by
  unfold lookup
  rw [lookupThen, if_neg (not_lt.mpr h.le), if_neg h.ne']

/-- Runs that can only delete, together. -/
theorem view_deleted {g : Run κ V → Bool}
    (h : ∀ l ∈ runs, l.lookup k = if g l then some none else none) :
    view runs k = if runs.any g then some none else none := by
  unfold view
  induction runs with
  | nil => rfl
  | cons l runs ih =>
      rw [List.findSome?_cons, h l List.mem_cons_self, List.any_cons]
      cases hg : g l with
      | true => rfl
      | false =>
          rw [Bool.false_or]
          exact ih fun m hm => h m (List.mem_cons_of_mem _ hm)

theorem view_before (h : ∀ l ∈ runs, ∀ r ∈ l.head?, k < r.key) :
    view runs k = if gapAny runs then some none else none :=
  view_deleted fun l hl => lookup_before (h l hl)

/-- Runs that say no value, together. -/
theorem view_join_none (h : ∀ l ∈ runs, (l.lookup k).join = none) : (view runs k).join = none := by
  unfold view
  induction runs with
  | nil => rfl
  | cons l runs ih =>
      rw [List.findSome?_cons]
      have hl := h l List.mem_cons_self
      rcases e : l.lookup k with - | w
      · exact ih fun m hm => h m (List.mem_cons_of_mem _ hm)
      · rw [e] at hl
        exact hl

theorem view_congr {f : Run κ V → Run κ V} (h : ∀ l ∈ runs, (f l).lookup k = l.lookup k) :
    view (runs.map f) k = view runs k := by
  unfold view
  induction runs with
  | nil => rfl
  | cons l runs ih =>
      rw [List.map_cons, List.findSome?_cons, List.findSome?_cons, h l List.mem_cons_self,
        ih fun m hm => h m (List.mem_cons_of_mem _ hm)]

theorem view_append {runs' : List (Run κ V)} :
    view (runs ++ runs') k = (view runs k).or (view runs' k) := List.findSome?_append

theorem Sorted.tail (h : Sorted (r :: l)) : Sorted l := (List.pairwise_cons.mp h).2

theorem Sorted.head_lt (h : Sorted (r :: l)) : ∀ r' ∈ l, r.key < r'.key :=
  (List.pairwise_cons.mp h).1

theorem Sorted.le_of_head {k : κ} (h : Sorted l) (hle : ∀ r ∈ l.head?, k ≤ r.key) :
    ∀ r ∈ l, k ≤ r.key := by
  intro r hr
  cases l with
  | nil => cases hr
  | cons r' l =>
      rcases List.mem_cons.mp hr with rfl | hr
      · exact hle r rfl
      · exact (hle r' rfl).trans (h.head_lt r hr).le

end Lookup

end Run

end Lsm

end MoVeBench
