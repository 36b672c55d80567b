/-
MoVeBench/Lib/TopK.lean

The `k` smallest of a stream of weighted items.

`IsTop k all top` says that `top` holds, in order of weight, as many items of
`all` as fit, and that no item left out is lighter than one kept.  Inserting an
item at its place and cutting the list to `k` keeps it (`IsTop.insert`), so a
bounded sorted buffer that sees the items one by one ends with the `k` smallest.
-/
import Mathlib

namespace TopK

variable {α D : Type*} [LinearOrder D]

/-- `top` holds the lightest items of `all`, at most `k`, in order of weight. -/
structure IsTop (k : ℕ) (all top : List (α × D)) : Prop where
  sorted : top.Pairwise fun a b => a.2 ≤ b.2
  length : top.length = min k all.length
  rest : ∃ rest, all.Perm (top ++ rest) ∧ ∀ a ∈ top, ∀ b ∈ rest, a.2 ≤ b.2

theorem IsTop.nil (k : ℕ) : IsTop k ([] : List (α × D)) [] :=
  ⟨List.Pairwise.nil, by simp, [], List.Perm.nil, by simp⟩

theorem IsTop.mem {k : ℕ} {all top : List (α × D)} (h : IsTop k all top) {a : α × D}
    (ha : a ∈ top) : a ∈ all := by
  obtain ⟨rest, hperm, -⟩ := h.rest
  exact hperm.mem_iff.mpr (List.mem_append_left rest ha)

/-- **A new item goes between the lighter and the heavier ones, and the list is
cut to `k`.** -/
theorem IsTop.insert {k : ℕ} {all l r : List (α × D)} {x : α × D} (h : IsTop k all (l ++ r))
    (hl : ∀ a ∈ l, a.2 ≤ x.2) (hr : ∀ b ∈ r, x.2 ≤ b.2) :
    IsTop k (x :: all) ((l ++ x :: r).take k) := by
  obtain ⟨hsorted, hlen, rest, hperm, hrest⟩ := h
  have hpw := List.pairwise_append.mp hsorted
  have hsorted' : (l ++ x :: r).Pairwise fun a b => a.2 ≤ b.2 := by
    refine List.pairwise_append.mpr ⟨hpw.1, List.pairwise_cons.mpr ⟨hr, hpw.2.1⟩, ?_⟩
    intro a ha b hb
    rcases List.mem_cons.mp hb with rfl | hb
    · exact hl a ha
    · exact hpw.2.2 a ha b hb
  have hlen' : l.length + r.length = min k all.length := by rw [← hlen, List.length_append]
  refine ⟨hsorted'.sublist (List.take_sublist k _), ?_, (l ++ x :: r).drop k ++ rest, ?_, ?_⟩
  · rw [List.length_take, List.length_append, List.length_cons, List.length_cons]
    omega
  · refine (hperm.cons x).trans ?_
    rw [← List.append_assoc, List.take_append_drop, ← List.cons_append]
    exact List.perm_middle.symm.append_right rest
  · intro a ha b hb
    rcases List.mem_append.mp hb with hcut | hb'
    · -- what is cut off now is greater than what stays
      have hsplit := List.take_append_drop k (l ++ x :: r) ▸ hsorted'
      exact (List.pairwise_append.mp hsplit).2.2 a ha b hcut
    · -- something was cut before, so the buffer is full
      have hfull : l.length + r.length = k := by
        have htotal := hperm.length_eq
        have hpos := List.length_pos_of_mem hb'
        simp only [List.length_append] at htotal
        omega
      rcases List.mem_append.mp (List.mem_of_mem_take ha) with ha' | ha'
      · exact hrest a (List.mem_append_left r ha') b hb'
      rcases r with - | ⟨c, r⟩
      · rw [List.length_nil, Nat.add_zero] at hfull
        rw [← hfull, List.take_left] at ha
        exact hrest a (List.mem_append_left [] ha) b hb'
      · rcases List.mem_cons.mp ha' with rfl | ha'
        · exact (hr c (by simp)).trans (hrest c (by simp) b hb')
        · exact hrest a (List.mem_append_right l ha') b hb'

end TopK
