/-
MoVeBench/Lib/Mixing.lean

Checksums that mix their input into a state, one place after the other.

Where every step can be undone once its input is known, two inputs that differ in one place
only end in different states: the states part at that place (`foldl_ne_of_step`), or before
the first one (`foldl_injective`), and no later step brings them together again.
-/
import Mathlib

namespace MoVeBench

namespace Mixing

variable {σ ι : Type*} {step step' : σ → ι → σ} {l : List ι}

/-- Steps that can be undone, one after the other. -/
theorem foldl_injective (h : ∀ i ∈ l, Function.Injective fun s => step s i) :
    Function.Injective fun s => l.foldl step s := by
  induction l with
  | nil => exact Function.injective_id
  | cons i l ih =>
      intro s s' heq
      have htail := ih (fun j hj => h j (List.mem_cons_of_mem _ hj)) heq
      exact h i List.mem_cons_self htail

/-- Steps that are the same on all places. -/
theorem foldl_congr (h : ∀ i ∈ l, ∀ s, step s i = step' s i) (s : σ) :
    l.foldl step s = l.foldl step' s := by
  induction l generalizing s with
  | nil => rfl
  | cons i l ih =>
      rw [List.foldl_cons, List.foldl_cons, h i List.mem_cons_self]
      exact ih (fun j hj => h j (List.mem_cons_of_mem _ hj)) _

/-- **One place differs**: the states differ from there on. -/
theorem foldl_ne_of_step (hl : l.Nodup) {j : ι} (hj : j ∈ l)
    (hsame : ∀ i ∈ l, i ≠ j → ∀ s, step s i = step' s i)
    (hinj : ∀ i ∈ l, Function.Injective fun s => step' s i)
    (hdiff : ∀ s, step s j ≠ step' s j) (s : σ) : l.foldl step s ≠ l.foldl step' s := by
  obtain ⟨l₁, l₂, rfl⟩ := List.append_of_mem hj
  obtain ⟨-, hl₂, hdisj⟩ := List.nodup_append.mp hl
  have hbefore : l₁.foldl step s = l₁.foldl step' s :=
    foldl_congr (fun i hi => hsame i (List.mem_append_left _ hi)
      fun hij => hdisj i hi j List.mem_cons_self hij) s
  have hafter : ∀ t, l₂.foldl step t = l₂.foldl step' t :=
    foldl_congr fun i hi => hsame i (by simp [hi])
      fun hij => (List.nodup_cons.mp hl₂).1 (hij ▸ hi)
  rw [List.foldl_append, List.foldl_append, List.foldl_cons, List.foldl_cons, hbefore, hafter]
  intro heq
  exact hdiff _ (foldl_injective (fun i hi => hinj i (by simp [hi])) heq)

end Mixing

end MoVeBench
