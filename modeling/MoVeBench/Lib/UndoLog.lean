/-
MoVeBench/Lib/UndoLog.lean

Rows with a log of old values, and nested transactions.

An entry of the log says what stood in a row before it was changed, or that there was no such row;
`undo` puts the old values back, newest entry first.

* `Live` says that every entry finds its row when it is undone.  Undoing never makes a row, so all
  rows in a live log exist (`Live.isSome`).
* Rows that differ in logged values only are the same when the log is undone (`undo_congr`); this is
  why a log can be put in front of an older one.
-/
import Mathlib

namespace UndoLog

variable {ι ρ : Type*}

/-- The rows that exist. -/
abbrev Rows (ι ρ : Type*) := ι → Option ρ

/-- A row and what it was before, if it existed. -/
structure Entry (ι ρ : Type*) where
  key : ι
  old : Option ρ

/-- The rows that the log is about. -/
def keys (l : List (Entry ι ρ)) : List ι := l.map Entry.key

@[simp] theorem keys_nil : keys ([] : List (Entry ι ρ)) = [] := rfl

@[simp] theorem keys_cons (e : Entry ι ρ) (l : List (Entry ι ρ)) :
    keys (e :: l) = e.key :: keys l := rfl

@[simp] theorem keys_append (l m : List (Entry ι ρ)) : keys (l ++ m) = keys l ++ keys m :=
  List.map_append

variable [DecidableEq ι]

def undoOne (S : Rows ι ρ) (e : Entry ι ρ) : Rows ι ρ := Function.update S e.key e.old

def undo : List (Entry ι ρ) → Rows ι ρ → Rows ι ρ
  | [], S => S
  | e :: l, S => undo l (undoOne S e)

/-- Each entry finds its row. -/
def Live : List (Entry ι ρ) → Rows ι ρ → Prop
  | [], _ => True
  | e :: l, S => (S e.key).isSome ∧ Live l (undoOne S e)

variable {S S' : Rows ι ρ} {l m : List (Entry ι ρ)} {e : Entry ι ρ} {x : ι}

theorem undo_append : undo (l ++ m) S = undo m (undo l S) := by
  induction l generalizing S with
  | nil => rfl
  | cons e l ih => exact ih

theorem live_append : Live (l ++ m) S ↔ Live l S ∧ Live m (undo l S) := by
  induction l generalizing S with
  | nil => simp [Live, undo]
  | cons e l ih => simp only [List.cons_append, Live, undo, ih, and_assoc]

theorem undo_of_notMem (hx : x ∉ keys l) : undo l S x = S x := by
  induction l generalizing S with
  | nil => rfl
  | cons e l ih =>
      rw [keys_cons, List.mem_cons, not_or] at hx
      rw [undo, ih hx.2, undoOne, Function.update_of_ne hx.1]

/-- What a logged row was does not matter. -/
theorem undo_congr (h : ∀ x, x ∉ keys l → S x = S' x) : undo l S = undo l S' := by
  induction l generalizing S S' with
  | nil => exact funext fun x => h x (by simp)
  | cons e l ih =>
      refine ih fun x hx => ?_
      by_cases hxe : x = e.key
      · simp [undoOne, hxe]
      · rw [undoOne, undoOne, Function.update_of_ne hxe, Function.update_of_ne hxe]
        exact h x (by simp [hxe, hx])

/-- Only which rows exist matters to `Live`. -/
theorem Live.congr (hl : Live l S) (h : ∀ x, (S x).isSome = (S' x).isSome) : Live l S' := by
  induction l generalizing S S' with
  | nil => trivial
  | cons e l ih =>
      refine ⟨by rw [← h]; exact hl.1, ih hl.2 fun x => ?_⟩
      by_cases hxe : x = e.key
      · simp [undoOne, hxe]
      · rw [undoOne, undoOne, Function.update_of_ne hxe, Function.update_of_ne hxe, h]

/-- Undoing a live log makes no row. -/
theorem Live.undo_none (hl : Live l S) (hx : S x = none) : undo l S x = none := by
  induction l generalizing S with
  | nil => exact hx
  | cons e l ih =>
      refine ih hl.2 ?_
      have hne : x ≠ e.key := by
        rintro rfl
        have hsome := hl.1
        rw [hx] at hsome
        simp at hsome
      rw [undoOne, Function.update_of_ne hne, hx]

theorem Live.isSome (hl : Live l S) (hx : x ∈ keys l) : (S x).isSome := by
  induction l generalizing S with
  | nil => simp at hx
  | cons e l ih =>
      by_cases hxe : x = e.key
      · rw [hxe]
        exact hl.1
      · have hx' := ih hl.2 ((List.mem_cons.mp hx).resolve_left hxe)
        rwa [undoOne, Function.update_of_ne hxe] at hx'

/-! ### Levels -/

/-- The logs of nested transactions, innermost first.  In the rows to which a log belongs, `lvl` is
that of the log exactly in the rows that it is about and smaller elsewhere; `base` is what holds of
the rows under all of them. -/
def Nested (lvl : ρ → ℕ) (base : ρ → Prop) : List (List (Entry ι ρ)) → Rows ι ρ → Prop
  | [], S => ∀ x r, S x = some r → base r ∧ lvl r = 0
  | l :: ls, S => Live l S ∧ (∀ x r, S x = some r →
      lvl r ≤ ls.length + 2 ∧ (lvl r = ls.length + 2 ↔ x ∈ keys l)) ∧ Nested lvl base ls (undo l S)

variable {lvl : ρ → ℕ} {base : ρ → Prop} {ls : List (List (Entry ι ρ))}

theorem Nested.live (hn : Nested lvl base ls S) : Live ls.flatten S := by
  induction ls generalizing S with
  | nil => trivial
  | cons l ls ih => exact live_append.mpr ⟨hn.1, ih hn.2.2⟩

theorem Nested.lvl_le (hn : Nested lvl base ls S) {r : ρ} (hx : S x = some r) :
    lvl r < ls.length + 2 := by
  cases ls with
  | nil => rw [(hn x r hx).2]; simp
  | cons l ls =>
      have := (hn.2.1 x r hx).1
      rw [List.length_cons]
      omega

/-- A row that no log is about is as it was under all of them. -/
theorem Nested.base_of_lvl (hn : Nested lvl base ls S) {r : ρ} (hx : S x = some r)
    (h0 : lvl r = 0) : base r := by
  induction ls generalizing S with
  | nil => exact (hn x r hx).1
  | cons l ls ih =>
      refine ih hn.2.2 ?_
      rw [undo_of_notMem, hx]
      intro hm
      have := ((hn.2.1 x r hx).2).mpr hm
      omega

/-- A transaction begins. -/
theorem Nested.push (hn : Nested lvl base ls S) : Nested lvl base ([] :: ls) S := by
  refine ⟨trivial, fun x r hx => ?_, hn⟩
  have := hn.lvl_le hx
  simp only [keys_nil, List.not_mem_nil, iff_false]
  omega

/-- A row that the log is not yet about gets an entry, and any other value of the level. -/
theorem Nested.record {l : List (Entry ι ρ)} (hn : Nested lvl base (l :: ls) S) {r : ρ}
    (hr : lvl r = ls.length + 2) :
    Nested lvl base ((⟨x, S x⟩ :: l) :: ls) (Function.update S x (some r)) := by
  have hundo : undoOne (Function.update S x (some r)) ⟨x, S x⟩ = S := by
    simp [undoOne]
  refine ⟨⟨by simp, by rw [hundo]; exact hn.1⟩, fun y q hy => ?_, by rw [undo, hundo]; exact hn.2.2⟩
  rw [keys_cons, List.mem_cons]
  by_cases hyx : y = x
  · rw [hyx, Function.update_self, Option.some_inj] at hy
    simp [hyx, ← hy, hr]
  · rw [Function.update_of_ne hyx] at hy
    simpa [hyx] using hn.2.1 y q hy

/-- A row that the log is about gets another value. -/
theorem Nested.rewrite {l : List (Entry ι ρ)} (hn : Nested lvl base (l :: ls) S) {r q : ρ}
    (hx : S x = some q) (hq : lvl q = ls.length + 2) (hr : lvl r = ls.length + 2) :
    Nested lvl base (l :: ls) (Function.update S x (some r)) := by
  have hxl : x ∈ keys l := (hn.2.1 x q hx).2.mp hq
  refine ⟨hn.1.congr fun y => ?_, fun y p hy => ?_, ?_⟩
  · by_cases hyx : y = x
    · simp [hyx, hx]
    · rw [Function.update_of_ne hyx]
  · by_cases hyx : y = x
    · rw [hyx, Function.update_self, Option.some_inj] at hy
      simp [hyx, ← hy, hr, hxl]
    · rw [Function.update_of_ne hyx] at hy
      exact hn.2.1 y p hy
  · have hsame : undo l (Function.update S x (some r)) = undo l S := undo_congr fun y hy =>
      Function.update_of_ne (by rintro rfl; exact hy hxl) ..
    rw [hsame]
    exact hn.2.2

/-- A log is put in front of the one below, and its rows get the level of that. -/
theorem Nested.splice {l m : List (Entry ι ρ)} (hn : Nested lvl base (l :: m :: ls) S)
    (hother : ∀ x, x ∉ keys l → S' x = S x) (hsome : ∀ x, (S x).isSome = (S' x).isSome)
    (hlvl : ∀ x ∈ keys l, ∀ r, S' x = some r → lvl r = ls.length + 2) :
    Nested lvl base ((l ++ m) :: ls) S' := by
  obtain ⟨hl, -, hm, hlv, hrest⟩ := hn
  have hundo : undo l S' = undo l S := undo_congr hother
  refine ⟨live_append.mpr ⟨hl.congr hsome, by rw [hundo]; exact hm⟩, fun x r hx => ?_, ?_⟩
  · rw [keys_append, List.mem_append]
    by_cases hxl : x ∈ keys l
    · simp [hlvl x hxl r hx, hxl]
    · rw [hother x hxl, ← undo_of_notMem (S := S) hxl] at hx
      simpa [hxl] using hlv x r hx
  · rw [undo_append, hundo]
    exact hrest

/-! ### The oldest entries -/

/-- The oldest entry for a row has the level 0. -/
def Bottom (lvl : ρ → ℕ) : List (Entry ι ρ) → Prop
  | [] => True
  | e :: l => (e.key ∉ keys l → ∀ r, e.old = some r → lvl r = 0) ∧ Bottom lvl l

theorem bottom_of_undo (h : ∀ x r, undo l S x = some r → lvl r = 0) : Bottom lvl l := by
  induction l generalizing S with
  | nil => trivial
  | cons e l ih =>
      refine ⟨fun hnew r hr => h e.key r ?_, ih h⟩
      rw [undo, undo_of_notMem hnew, undoOne, Function.update_self, hr]

/-- Under all levels the rows are as `base` says. -/
theorem Nested.undo_all (hn : Nested lvl base ls S) {r : ρ} (hx : undo ls.flatten S x = some r) :
    base r ∧ lvl r = 0 := by
  induction ls generalizing S with
  | nil => exact hn x r hx
  | cons l ls ih =>
      rw [List.flatten_cons, undo_append] at hx
      exact ih hn.2.2 hx

theorem Nested.bottom (hn : Nested lvl base ls S) : Bottom lvl ls.flatten :=
  bottom_of_undo fun _ _ hx => (hn.undo_all hx).2

end UndoLog
