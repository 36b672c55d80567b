/-
MoVeBench/Lib/DoubleSlot.lean

A value kept in two slots that are written in turn.

A slot may be unreadable (`none`): a write that was cut off leaves it so.  Values
have ranks.  `Newest slots rank v` says which value the two slots stand for: the
one of greater rank among those that can be read.  What the discipline rests on
is that the slot of the newest value is left alone: the other slot may be torn
(`Newest.tear`) and then filled with a value of greater rank (`Newest.fill`).
-/
import Mathlib

namespace DoubleSlot

variable {α R : Type*}

/-- The value the two slots stand for, with its slot: it can be read, and what
else can be read has a smaller rank.  `none` if nothing can be read. -/
def Newest [LT R] (slots : Bool → Option α) (rank : α → R) : Option (Bool × α) → Prop
  | none => ∀ i, slots i = none
  | some (i, a) => slots i = some a ∧ ∀ b, slots (!i) = some b → rank b < rank a

variable [Preorder R] {slots : Bool → Option α} {rank : α → R} {i : Bool} {a b : α}

/-- The slots stand for one value. -/
theorem Newest.unique {v w : Option (Bool × α)} (hv : Newest slots rank v)
    (hw : Newest slots rank w) : v = w := by
  rcases v with - | ⟨i, a⟩ <;> rcases w with - | ⟨j, b⟩
  · rfl
  · exact absurd hw.1 (by rw [hv j]; nofun)
  · exact absurd hv.1 (by rw [hw i]; nofun)
  · rcases eq_or_ne j i with rfl | hne
    · have hab : some a = some b := hv.1.symm.trans hw.1
      rw [Option.some.inj hab]
    · -- each would have to outrank the other
      obtain rfl := Bool.eq_not_of_ne hne
      have hba : rank b < rank a := hv.2 b hw.1
      have hab : rank a < rank b := hw.2 a (by rw [Bool.not_not]; exact hv.1)
      exact absurd (hab.trans hba) (lt_irrefl _)

/-- The other slot is torn. -/
theorem Newest.tear (h : Newest slots rank (some (i, a))) :
    Newest (Function.update slots (!i) none) rank (some (i, a)) := by
  refine ⟨?_, fun b hb => ?_⟩
  · rw [Function.update_of_ne (by simp)]
    exact h.1
  · rw [Function.update_self] at hb
    cases hb

/-- The other slot is filled with a value of greater rank. -/
theorem Newest.fill (h : Newest slots rank (some (i, a))) (hab : rank a < rank b) :
    Newest (Function.update slots (!i) (some b)) rank (some (!i, b)) := by
  refine ⟨Function.update_self .., fun c hc => ?_⟩
  rw [Bool.not_not, Function.update_of_ne (by simp), h.1] at hc
  rwa [← Option.some.inj hc]

/-- A slot is torn where nothing can be read. -/
theorem Newest.tear_none (h : Newest slots rank none) (i : Bool) :
    Newest (Function.update slots i none) rank none := by
  intro j
  rcases eq_or_ne j i with rfl | hj
  · exact Function.update_self ..
  · rw [Function.update_of_ne hj]
    exact h j

/-- The first value. -/
theorem Newest.fill_none (h : Newest slots rank none) (i : Bool) (b : α) :
    Newest (Function.update slots i (some b)) rank (some (i, b)) := by
  refine ⟨Function.update_self .., fun c hc => ?_⟩
  rw [Function.update_of_ne (by simp), h] at hc
  cases hc

/-- The newest value is found in at most two tries, if the first try is not at a
slot that the other one outranks. -/
theorem Newest.found {v : Option (Bool × α)} (h : Newest slots rank v) (i : Bool)
    (hfirst : ∀ a b, slots i = some a → slots (!i) = some b → ¬ rank a < rank b) :
    ((slots i).map (i, ·) <|> (slots (!i)).map ((!i), ·)) = v := by
  rcases v with - | ⟨j, c⟩
  · rw [h i, h (!i)]
    rfl
  · rcases eq_or_ne i j with rfl | hne
    · rw [h.1]
      rfl
    · obtain rfl := Bool.eq_not_of_ne hne
      rw [Bool.not_not] at hfirst ⊢
      rcases hi : slots (!j) with - | b
      · rw [h.1]
        rfl
      · exact absurd (h.2 b hi) (hfirst b c hi h.1)

end DoubleSlot
