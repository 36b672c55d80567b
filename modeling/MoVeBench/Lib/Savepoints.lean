/-
MoVeBench/Lib/Savepoints.lean

A state with savepoints: nested transactions over states of any type.

`push` opens a level, `release` closes levels and keeps the state, `revert` closes levels and goes
back to the state in which the outermost of them was opened.  `ofLevels` gives the savepoints by
their levels, and the operations on it are those on the function of the levels.
-/
import Mathlib

/-- A state, and the states to go back to, the innermost first. -/
structure Savepoints (σ : Type*) where
  now : σ
  saved : List σ

namespace Savepoints

variable {σ : Type*}

/-! ### Operations -/

def push (s : Savepoints σ) : Savepoints σ := ⟨s.now, s.now :: s.saved⟩

def modify (s : Savepoints σ) (f : σ → σ) : Savepoints σ := ⟨f s.now, s.saved⟩

/-- Close the levels from `d` on. -/
def release (s : Savepoints σ) (d : ℕ) : Savepoints σ :=
  ⟨s.now, s.saved.drop (s.saved.length - d)⟩

/-- Close the levels from `d` on and take back what was done in them. -/
def revert (s : Savepoints σ) (d : ℕ) : Savepoints σ :=
  if h : d < s.saved.length then ⟨s.saved[s.saved.length - 1 - d], (s.release d).saved⟩ else s

/-! ### Savepoints by level -/

/-- The states `f 0`, …, `f (n - 1)` are those to go back to. -/
def ofLevels (x : σ) (f : ℕ → σ) (n : ℕ) : Savepoints σ := ⟨x, (List.range n).reverse.map f⟩

variable {x : σ} {f g : ℕ → σ} {d n : ℕ}

theorem length_ofLevels : (ofLevels x f n).saved.length = n := by simp [ofLevels]

theorem ofLevels_congr (h : ∀ i < n, f i = g i) : ofLevels x f n = ofLevels x g n := by
  rw [ofLevels, ofLevels, mk.injEq]
  refine ⟨rfl, List.map_congr_left fun i hi => h i ?_⟩
  simpa using hi

/-- The level `n` is opened. -/
theorem push_ofLevels :
    (ofLevels x f n).push = ofLevels x (fun i => if i < n then f i else x) (n + 1) := by
  have hbelow : ((List.range n).reverse.map fun i => if i < n then f i else x) =
      (List.range n).reverse.map f :=
    List.map_congr_left fun i hi => if_pos (by simpa using hi)
  rw [push, ofLevels, ofLevels, List.range_succ, List.reverse_append, List.map_append, hbelow]
  simp

theorem release_ofLevels (h : d ≤ n) : (ofLevels x f n).release d = ofLevels x f d := by
  obtain ⟨k, rfl⟩ := Nat.exists_eq_add_of_le h
  rw [release, length_ofLevels, ofLevels, ofLevels, mk.injEq]
  refine ⟨rfl, ?_⟩
  rw [List.range_add, List.reverse_append, List.map_append, Nat.add_sub_cancel_left]
  exact List.drop_left' (by simp)

theorem revert_ofLevels (h : d < n) : (ofLevels x f n).revert d = ofLevels (f d) f d := by
  have hsaved := congrArg saved (release_ofLevels (x := x) (f := f) h.le)
  rw [revert, dif_pos (by rw [length_ofLevels]; exact h), hsaved, mk.injEq]
  refine ⟨?_, rfl⟩
  simp only [ofLevels, List.getElem_map, List.getElem_reverse, List.getElem_range,
    List.length_map, List.length_reverse, List.length_range]
  congr 1
  omega

theorem revert_of_le (h : n ≤ d) : (ofLevels x f n).revert d = ofLevels x f n :=
  dif_neg (by rw [length_ofLevels]; exact Nat.not_lt.mpr h)

end Savepoints
