/-
MoVeBench/Lib/SlotList.lean

Lists in slots: elements lie one behind the other, an element is written over another
or behind the last (`putAt`), and is deleted by moving the last one into its place
(`swapRemove`).

Such a deletion keeps the other elements up to their order (`swapRemove_perm`).  So does
a loop that deletes in this way while it scans: what is left are the elements that the
predicate keeps (`sweep_perm`).
-/
import Mathlib

namespace SlotList

variable {α : Type*}

/-- Write an element over the one at `i`, or behind the last. -/
def putAt (l : List α) (i : ℕ) (a : α) : List α := if i = l.length then l ++ [a] else l.set i a

/-- Delete the element at `i`; the last one takes its place. -/
def swapRemove (l : List α) (i : ℕ) : List α :=
  match l.getLast? with
  | none => []
  | some a => (l.set i a).dropLast

/-- Delete what `keep` rejects among the `k` elements from `i` on. -/
def sweep (keep : α → Bool) : ℕ → ℕ → List α → List α
  | 0, _, l => l
  | k + 1, i, l =>
      match l[i]? with
      | none => l
      | some a => if keep a then sweep keep k (i + 1) l else sweep keep k i (swapRemove l i)

/-! ### Elements -/

theorem putAt_length {l : List α} {i : ℕ} (a : α) :
    (putAt l i a).length = if i = l.length then l.length + 1 else l.length := by
  unfold putAt
  split_ifs with h
  · exact List.length_append
  · exact List.length_set

theorem getElem?_putAt {l : List α} {i : ℕ} (hi : i ≤ l.length) (a : α) (j : ℕ) :
    (putAt l i a)[j]? = if j = i then some a else l[j]? := by
  unfold putAt
  split_ifs with hlast hji hji
  · subst hji
    subst hlast
    exact List.getElem?_concat_length
  · rcases Nat.lt_or_gt_of_ne hji with hlt | hgt
    · exact List.getElem?_append_left (by omega)
    · rw [List.getElem?_eq_none (by rw [List.length_append, List.length_singleton]; omega),
        List.getElem?_eq_none (by omega)]
  · subst hji
    exact List.getElem?_set_self (by omega)
  · exact List.getElem?_set_ne (Ne.symm hji)

theorem getD_set_self {l : List α} {i : ℕ} (h : i < l.length) (a d : α) :
    (l.set i a).getD i d = a := by
  rw [List.getD_eq_getElem?_getD, List.getElem?_set_self h, Option.getD_some]

theorem getD_set_of_ne {l : List α} {i j : ℕ} (h : i ≠ j) (a d : α) :
    (l.set i a).getD j d = l.getD j d := by
  rw [List.getD_eq_getElem?_getD, List.getElem?_set_ne h, List.getD_eq_getElem?_getD]

/-- A list of at least one element, by its last one. -/
theorem swapRemove_concat (l : List α) (a : α) (i : ℕ) :
    swapRemove (l ++ [a]) i = l.set i a := by
  unfold swapRemove
  simp only [List.getLast?_append, List.getLast?_singleton, Option.some_or]
  rcases Nat.lt_or_ge i l.length with hlt | hge
  · rw [List.set_append_left i a hlt, List.dropLast_concat]
  · rw [List.set_append_right i a hge, List.set_eq_of_length_le hge]
    rcases i - l.length with - | k
    · exact List.dropLast_concat
    · exact List.dropLast_concat

theorem swapRemove_length (l : List α) (i : ℕ) : (swapRemove l i).length = l.length - 1 := by
  rcases l.eq_nil_or_concat' with rfl | ⟨m, a, rfl⟩
  · rfl
  · rw [swapRemove_concat, List.length_set, List.length_append, List.length_singleton,
      Nat.add_sub_cancel]

theorem getElem?_swapRemove {l : List α} {i j : ℕ} (hj : j < l.length - 1) :
    (swapRemove l i)[j]? = if j = i then l[l.length - 1]? else l[j]? := by
  rcases l.eq_nil_or_concat' with rfl | ⟨m, a, rfl⟩
  · exact absurd hj (Nat.not_lt_zero j)
  rw [List.length_append, List.length_singleton, Nat.add_sub_cancel] at hj ⊢
  rw [swapRemove_concat]
  split_ifs with hji
  · subst hji
    rw [List.getElem?_set_self hj, List.getElem?_concat_length]
  · rw [List.getElem?_set_ne (Ne.symm hji), List.getElem?_append_left hj]

theorem swapRemove_take (l : List α) (i : ℕ) : (swapRemove l i).take i = l.dropLast.take i := by
  rcases l.eq_nil_or_concat' with rfl | ⟨m, a, rfl⟩
  · rfl
  · rw [swapRemove_concat, List.dropLast_concat, List.take_set_of_le (Nat.le_refl _)]

/-! ### Elements up to their order -/

/-- **A deletion keeps the other elements.** -/
theorem swapRemove_perm {l : List α} {i : ℕ} (h : i < l.length) :
    (l[i] :: swapRemove l i).Perm l := by
  obtain ⟨m, a, rfl⟩ : ∃ m a, l = m ++ [a] := by
    rcases l.eq_nil_or_concat' with rfl | ⟨m, a, rfl⟩
    · exact absurd h (Nat.not_lt_zero i)
    · exact ⟨m, a, rfl⟩
  rw [swapRemove_concat]
  have hlast := (List.perm_append_singleton a m).symm
  rcases Nat.lt_or_ge i m.length with hlt | hge
  · rw [List.getElem_append_left hlt]
    calc (m[i] :: m.set i a).Perm (m[i] :: a :: m.eraseIdx i) :=
          (List.set_perm_cons_eraseIdx hlt a).cons _
      _ |>.Perm (a :: m[i] :: m.eraseIdx i) := List.Perm.swap _ _ _
      _ |>.Perm (a :: m) := (List.getElem_cons_eraseIdx_perm hlt).cons a
      _ |>.Perm (m ++ [a]) := hlast
  · obtain rfl : i = m.length := by
      rw [List.length_append, List.length_singleton] at h
      omega
    rw [List.set_eq_of_length_le (Nat.le_refl _), List.getElem_concat_length rfl]
    exact hlast

/-- **A sweep filters**: what lies before `i` is kept, and `k` elements follow. -/
theorem sweep_perm (keep : α → Bool) {k i : ℕ} {l : List α} (hk : i + k = l.length)
    (hkept : ∀ a ∈ l.take i, keep a = true) : (sweep keep k i l).Perm (l.filter keep) := by
  induction k generalizing i l with
  | zero =>
      rw [Nat.add_zero] at hk
      rw [hk, List.take_length] at hkept
      rw [List.filter_eq_self.mpr hkept]
      exact .rfl
  | succ k ih =>
      have hi : i < l.length := by omega
      simp only [sweep, List.getElem?_eq_getElem hi]
      split_ifs with ha
      · refine ih (by omega) ?_
        intro a hmem
        rw [List.take_succ_eq_append_getElem hi, List.mem_append, List.mem_singleton] at hmem
        rcases hmem with hmem | rfl
        · exact hkept a hmem
        · exact ha
      · have hrest := ih (i := i) (l := swapRemove l i) (by rw [swapRemove_length]; omega) (by
          intro a hmem
          rw [swapRemove_take] at hmem
          rw [List.dropLast_eq_take, List.take_take] at hmem
          exact hkept a (List.take_subset_take_left l (Nat.min_le_left _ _) hmem))
        refine hrest.trans ?_
        have hfilter := (swapRemove_perm hi).filter keep
        rwa [List.filter_cons_of_neg ha] at hfilter

end SlotList
