/-
MoVeBench/Lib/Visit.lean

Callbacks that are called for the elements of a list until one of the calls says to stop.

A callback may make calls of its own.  Where it stands then decides which calls an element
leads to and where it stands after them, and a list leads to the calls of its elements one
after the other (`visit_through`).
-/
import Mathlib

namespace MoVeBench

namespace Visit

variable {σ τ α β γ : Type*}

/-- Calls `x` for the elements of a list in order, and stops at the first call that returns
true. -/
def visit (x : τ → α → τ × Bool) : τ → List α → τ × Bool
  | t, [] => (t, false)
  | t, a :: l => if (x t a).2 then ((x t a).1, true) else visit x (x t a).1 l

/-- The calls that a list leads to, from `P` on. -/
def emitted (calls : γ → α → List β) (rest : γ → α → γ) : γ → List α → List β
  | _, [] => []
  | P, a :: l => calls P a ++ emitted calls rest (rest P a) l

variable {x : τ → α → τ × Bool}

theorem visit_cons (t : τ) (a : α) (l : List α) :
    visit x t (a :: l) = if (x t a).2 then ((x t a).1, true) else visit x (x t a).1 l := rfl

theorem visit_stop {t : τ} {a : α} {l : List α} (h : (x t a).2 = true) :
    visit x t (a :: l) = ((x t a).1, true) := if_pos h

theorem visit_next {t : τ} {a : α} {l : List α} (h : (x t a).2 = false) :
    visit x t (a :: l) = visit x (x t a).1 l := by
  rw [visit_cons, h]
  rfl

/-- A single call. -/
theorem visit_singleton (t : τ) (a : α) : visit x t [a] = x t a := by
  cases h : (x t a).2 with
  | true => rw [visit_stop h, ← h]
  | false =>
      rw [visit_next h]
      exact Prod.ext rfl h.symm

theorem visit_append_stop {t : τ} {l₁ l₂ : List α} (h : (visit x t l₁).2 = true) :
    visit x t (l₁ ++ l₂) = visit x t l₁ := by
  induction l₁ generalizing t with
  | nil => cases h
  | cons a l₁ ih =>
      cases ha : (x t a).2 with
      | true => rw [List.cons_append, visit_stop ha, visit_stop ha]
      | false =>
          rw [visit_next ha] at h
          rw [List.cons_append, visit_next ha, visit_next ha, ih h]

theorem visit_append_next {t : τ} {l₁ l₂ : List α} (h : (visit x t l₁).2 = false) :
    visit x t (l₁ ++ l₂) = visit x (visit x t l₁).1 l₂ := by
  induction l₁ generalizing t with
  | nil => rfl
  | cons a l₁ ih =>
      cases ha : (x t a).2 with
      | true =>
          rw [visit_stop ha] at h
          cases h
      | false =>
          rw [visit_next ha] at h
          rw [List.cons_append, visit_next ha, visit_next ha, ih h]

/-- **A callback that makes calls**: with `I` telling where it stands, and each call of it
being answered as the calls that it leads to; `J` holds once one of these says to stop. -/
theorem visit_through {y : τ → β → τ × Bool} {cb : σ × τ → α → (σ × τ) × Bool}
    {I : σ → γ → Prop} {J : σ → Prop} {calls : γ → α → List β} {rest : γ → α → γ}
    (hstep : ∀ p P t a, I p P → ∃ p',
      cb (p, t) a = ((p', (visit y t (calls P a)).1), (visit y t (calls P a)).2) ∧
        ((visit y t (calls P a)).2 = false → I p' (rest P a)) ∧
          ((visit y t (calls P a)).2 = true → J p'))
    (l : List α) {p : σ} {P : γ} (t : τ) (hI : I p P) :
    ∃ p', visit cb (p, t) l = ((p', (visit y t (emitted calls rest P l)).1),
        (visit y t (emitted calls rest P l)).2) ∧
      ((visit y t (emitted calls rest P l)).2 = false → I p' (l.foldl rest P)) ∧
        ((visit y t (emitted calls rest P l)).2 = true → J p') := by
  induction l generalizing p P t with
  | nil => exact ⟨p, rfl, fun _ => hI, nofun⟩
  | cons a l ih =>
      obtain ⟨p', hcb, hI', hJ⟩ := hstep p P t a hI
      cases hstop : (visit y t (calls P a)).2 with
      | true =>
          refine ⟨p', ?_, ?_, fun _ => hJ hstop⟩
          · rw [emitted, visit_append_stop hstop, visit_stop (by rw [hcb, hstop]), hcb, hstop]
          · rw [emitted, visit_append_stop hstop, hstop]
            exact nofun
      | false =>
          obtain ⟨p'', hl, hI''⟩ := ih (visit y t (calls P a)).1 (hI' hstop)
          rw [emitted, visit_append_next hstop, visit_next (by rw [hcb, hstop]), hcb]
          exact ⟨p'', hl, hI''⟩

end Visit

end MoVeBench
