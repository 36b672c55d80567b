/-
MoVeBench/Lib/Runs.lean

Systems that take labelled steps, and what holds in every state they reach.

A run may be restricted: `Reach S C` are the states reached by steps whose
label satisfies `C` in the state before the step.  The one induction over runs
is `Reach.invariant`; `acc_of_measure` is the rule for runs that end.
-/
import Mathlib

namespace Runs

variable {σ α : Type*}

/-- A system: its initial states, and its steps with their labels. -/
structure System (σ α : Type*) where
  init : σ → Prop
  step : σ → α → σ → Prop

/-- The states that steps meeting `C` lead to. -/
inductive Reach (S : System σ α) (C : σ → α → Prop) : σ → Prop
  | init {s : σ} : S.init s → Reach S C s
  | step {s t : σ} {a : α} : Reach S C s → C s a → S.step s a t → Reach S C t

/-- Steps that meet a stronger condition. -/
theorem Reach.mono {S : System σ α} {C C' : σ → α → Prop} (h : ∀ s a, C s a → C' s a) {s : σ}
    (hs : Reach S C s) : Reach S C' s := by
  induction hs with
  | init hi => exact .init hi
  | step _ hc hstep ih => exact .step ih (h _ _ hc) hstep

/-- **The invariant rule**: what holds initially, and is kept by every step that
meets the condition, holds in every state reached. -/
theorem Reach.invariant {S : System σ α} {C : σ → α → Prop} {I : σ → Prop}
    (hinit : ∀ s, S.init s → I s)
    (hstep : ∀ s a t, I s → C s a → S.step s a t → I t) {s : σ} (hs : Reach S C s) : I s := by
  induction hs with
  | init hi => exact hinit _ hi
  | step _ hc hs ih => exact hstep _ _ _ ih hc hs

/-- **The termination rule**: a relation that keeps an invariant and makes a measure
smaller has no infinite chain from a state that satisfies the invariant. -/
theorem acc_of_measure {r : σ → σ → Prop} {I : σ → Prop} (measure : σ → ℕ)
    (hstep : ∀ s t, I s → r s t → I t ∧ measure t < measure s) {s : σ} (hs : I s) :
    Acc (fun t s => r s t) s := by
  induction hm : measure s using Nat.strong_induction_on generalizing s with
  | _ m ih =>
      refine Acc.intro s ?_
      intro t hr
      obtain ⟨ht, hlt⟩ := hstep s t hs hr
      exact ih (measure t) (hm ▸ hlt) ht rfl

end Runs
