/-
MoVeBench/Lib/NearestEven.lean

Rounding to the nearest point of a grid, ties to even.

The grid is an increasing sequence `v 0, v 1, …, v N`, and its points are told by their
numbers.  A number is the rounding of `x` when no point is closer to `x`, and when it is
even if another point is as close (`Nearest`); there is at most one (`Nearest.unique`).
Between two neighbours the midpoint decides (`nearest_div`).

The binary formats are grids of this kind: a pattern of exponent and `p` bits of fraction
counts units of the least positive number, and the next pattern is one step up
(`units_succ`), whether or not the exponent changes there.
-/
import Mathlib

namespace NearestEven

/-! ### Grids -/

section Grid

variable {α : Type*} [CommRing α] [LinearOrder α] [IsStrictOrderedRing α]

/-- Point `n` is the rounding of `x`. -/
structure Nearest (v : ℕ → α) (N : ℕ) (x : α) (n : ℕ) : Prop where
  le : n ≤ N
  nearest : ∀ k, k ≤ N → |x - v n| ≤ |x - v k|
  even : ∀ k, k ≤ N → |x - v n| = |x - v k| → k = n ∨ n % 2 = 0

variable {v : ℕ → α} (hv : StrictMono v) {N : ℕ} {x : α}
include hv

/-- Of two points that are as close, one lies below `x` and one above, and none between. -/
theorem Nearest.lt_succ {m n : ℕ} (hm : Nearest v N x m) (hn : Nearest v N x n) (hlt : m < n) :
    n = m + 1 := by
  have heq : |x - v m| = |x - v n| := le_antisymm (hm.nearest n hn.le) (hn.nearest m hm.le)
  have hmn : v m < v n := hv hlt
  by_contra hne
  have hbelow : v m < v (m + 1) := hv (Nat.lt_succ_self m)
  have habove : v (m + 1) < v n := hv (by omega)
  have hclose := hm.nearest (m + 1) (by have := hn.le; omega)
  -- `x` is the midpoint of the two
  rcases abs_cases (x - v m) with ⟨h1, h1'⟩ | ⟨h1, h1'⟩ <;>
    rcases abs_cases (x - v n) with ⟨h2, h2'⟩ | ⟨h2, h2'⟩ <;>
    rcases abs_cases (x - v (m + 1)) with ⟨h3, -⟩ | ⟨h3, -⟩ <;> linarith

/-- **There is one rounding.** -/
theorem Nearest.unique {m n : ℕ} (hm : Nearest v N x m) (hn : Nearest v N x n) : m = n := by
  have heq : |x - v m| = |x - v n| := le_antisymm (hm.nearest n hn.le) (hn.nearest m hm.le)
  by_contra hne
  have hme := (hm.even n hn.le heq).resolve_left (Ne.symm hne)
  have hne' := (hn.even m hm.le heq.symm).resolve_left hne
  rcases Nat.lt_or_gt_of_ne hne with hlt | hlt
  · have := hm.lt_succ hv hn hlt
    omega
  · have := hn.lt_succ hv hm hlt
    omega

/-- A point of the grid is its own rounding. -/
theorem nearest_self {n : ℕ} (hn : n ≤ N) : Nearest v N (v n) n where
  le := hn
  nearest := by
    intro k _
    rw [sub_self, abs_zero]
    exact abs_nonneg _
  even := by
    intro k _ h
    rw [sub_self, abs_zero] at h
    exact Or.inl (hv.injective (sub_eq_zero.mp (abs_eq_zero.mp h.symm))).symm

/-- Above the grid the last point is the rounding. -/
theorem nearest_top (hx : v N ≤ x) : Nearest v N x N where
  le := le_rfl
  nearest := by
    intro k hk
    have := hv.monotone hk
    rw [abs_of_nonneg (by linarith), abs_of_nonneg (by linarith)]
    linarith
  even := by
    intro k hk h
    have hle := hv.monotone hk
    rw [abs_of_nonneg (by linarith), abs_of_nonneg (by linarith)] at h
    exact Or.inl (hv.injective (by linarith))

/-- The lower of two neighbours, when `x` is not beyond the midpoint. -/
theorem nearest_lower {k : ℕ} (hk : k + 1 ≤ N) (hlow : v k ≤ x)
    (h : x - v k < v (k + 1) - x ∨ x - v k = v (k + 1) - x ∧ k % 2 = 0) :
    Nearest v N x k := by
  have hmid : x - v k ≤ v (k + 1) - x := by
    rcases h with h | ⟨h, -⟩ <;> linarith
  have hfar : ∀ j, j ≤ k ∧ x - v k ≤ |x - v j| ∧ (x - v k = |x - v j| → j = k) ∨
      v (k + 1) - x ≤ |x - v j| := by
    intro j
    rcases Nat.lt_or_ge k j with hj | hj
    · have hle : v (k + 1) ≤ v j := hv.monotone hj
      refine Or.inr ?_
      rw [abs_of_nonpos (by linarith)]
      linarith
    · have hle := hv.monotone hj
      refine Or.inl ⟨hj, ?_, ?_⟩
      all_goals rw [abs_of_nonneg (by linarith)]
      · linarith
      · intro he
        exact hv.injective (by linarith)
  refine ⟨by omega, fun j _ => ?_, fun j _ he => ?_⟩
  all_goals rw [abs_of_nonneg (sub_nonneg.mpr hlow)] at *
  · rcases hfar j with ⟨-, hle, -⟩ | hle <;> linarith
  · rcases hfar j with ⟨-, -, heq⟩ | hle
    · exact Or.inl (heq he)
    · rcases h with h | ⟨-, heven⟩
      · linarith
      · exact Or.inr heven

/-- The upper of two neighbours, when `x` is not below the midpoint. -/
theorem nearest_upper {k : ℕ} (hk : k + 1 ≤ N) (hhigh : x ≤ v (k + 1))
    (h : v (k + 1) - x < x - v k ∨ v (k + 1) - x = x - v k ∧ (k + 1) % 2 = 0) :
    Nearest v N x (k + 1) := by
  have hmid : v (k + 1) - x ≤ x - v k := by
    rcases h with h | ⟨h, -⟩ <;> linarith
  have hfar : ∀ j, x - v k ≤ |x - v j| ∨
      v (k + 1) - x ≤ |x - v j| ∧ (v (k + 1) - x = |x - v j| → j = k + 1) := by
    intro j
    rcases Nat.lt_or_ge k j with hj | hj
    · have hle : v (k + 1) ≤ v j := hv.monotone hj
      refine Or.inr ⟨?_, ?_⟩
      all_goals rw [abs_of_nonpos (by linarith)]
      · linarith
      · intro he
        exact hv.injective (by linarith)
    · have hle := hv.monotone hj
      refine Or.inl ?_
      rw [abs_of_nonneg (by linarith)]
      linarith
  refine ⟨hk, fun j _ => ?_, fun j _ he => ?_⟩
  all_goals rw [abs_of_nonpos (sub_nonpos.mpr hhigh)] at *
  · rcases hfar j with hle | ⟨hle, -⟩ <;> linarith
  · rcases hfar j with hle | ⟨-, heq⟩
    · rcases h with h | ⟨-, heven⟩
      · linarith
      · exact Or.inr heven
    · exact Or.inl (heq (by linarith))

/-- **The midpoint decides.**  `x` is `F` units; the neighbours are the multiples of `D` units
below and above it. -/
theorem nearest_div {k F D : ℕ} {P : α} (hP : 0 < P) (hk : k + 1 ≤ N) (hD : 0 < D)
    (hx : x = F * P) (hlow : v k = (F / D * D : ℕ) * P)
    (hhigh : v (k + 1) = (F / D * D + D : ℕ) * P) :
    Nearest v N x (if D < 2 * (F % D) ∨ D = 2 * (F % D) ∧ k % 2 = 1 then k + 1 else k) := by
  have hF : F / D * D + F % D = F := Nat.div_add_mod' F D
  have hr : F % D < D := Nat.mod_lt F hD
  have hxk : x - v k = ((F % D : ℕ) : α) * P := by
    rw [hx, hlow, ← sub_mul, ← Nat.cast_sub (by omega), show F - F / D * D = F % D by omega]
  have hkx : v (k + 1) - x = ((D - F % D : ℕ) : α) * P := by
    rw [hx, hhigh, ← sub_mul, ← Nat.cast_sub (by omega)]
    exact congrArg (fun n : ℕ => (n : α) * P) (by omega)
  have hlow0 : v k ≤ x := by
    have : (0 : α) ≤ ((F % D : ℕ) : α) * P := mul_nonneg (Nat.cast_nonneg _) hP.le
    linarith
  have hhigh0 : x ≤ v (k + 1) := by
    have : (0 : α) ≤ ((D - F % D : ℕ) : α) * P := mul_nonneg (Nat.cast_nonneg _) hP.le
    linarith
  split_ifs with hup
  · refine nearest_upper hv hk hhigh0 ?_
    rw [hxk, hkx]
    rcases hup with hlt | ⟨heq, hodd⟩
    · exact Or.inl (mul_lt_mul_of_pos_right (Nat.cast_lt.mpr (by omega)) hP)
    · exact Or.inr ⟨by rw [show D - F % D = F % D by omega], by omega⟩
  · refine nearest_lower hv hk hlow0 ?_
    rw [hxk, hkx]
    rcases Nat.lt_or_ge (2 * (F % D)) D with hlt | hge
    · exact Or.inl (mul_lt_mul_of_pos_right (Nat.cast_lt.mpr (by omega)) hP)
    · have heq : D = 2 * (F % D) := by omega
      refine Or.inr ⟨by rw [show D - F % D = F % D by omega], ?_⟩
      by_contra hodd
      exact hup (Or.inr ⟨heq, by omega⟩)

end Grid

/-! ### Binary formats -/

/-- The number that a pattern of exponent and `p` bits of fraction stands for, in units of the
least positive one. -/
def units (p m : ℕ) : ℕ :=
  if m / 2 ^ p = 0 then m else (2 ^ p + m % 2 ^ p) * 2 ^ (m / 2 ^ p - 1)

theorem units_of_lt {p m : ℕ} (h : m < 2 ^ p) : units p m = m :=
  if_pos (Nat.div_eq_of_lt h)

theorem units_of_exponent {p e f : ℕ} (hf : f < 2 ^ p) :
    units p ((e + 1) * 2 ^ p + f) = (2 ^ p + f) * 2 ^ e := by
  have hpos : 0 < 2 ^ p := Nat.two_pow_pos p
  have hdiv : ((e + 1) * 2 ^ p + f) / 2 ^ p = e + 1 := by
    rw [Nat.add_comm, Nat.add_mul_div_right _ _ hpos, Nat.div_eq_of_lt hf, Nat.zero_add]
  have hmod : ((e + 1) * 2 ^ p + f) % 2 ^ p = f := by
    rw [Nat.add_comm, Nat.add_mul_mod_self_right, Nat.mod_eq_of_lt hf]
  rw [units, hdiv, hmod, if_neg (by omega), Nat.add_sub_cancel]

/-- **The next pattern is one step up**, also where it has another exponent. -/
theorem units_succ (p m : ℕ) : units p (m + 1) = units p m + 2 ^ (m / 2 ^ p - 1) := by
  have hpos : 0 < 2 ^ p := Nat.two_pow_pos p
  have hm : m / 2 ^ p * 2 ^ p + m % 2 ^ p = m := Nat.div_add_mod' m (2 ^ p)
  have hlt : m % 2 ^ p < 2 ^ p := Nat.mod_lt m hpos
  generalize hE : m / 2 ^ p = E at hm ⊢
  generalize hf : m % 2 ^ p = f at hm hlt
  rw [← hm]
  rcases Nat.lt_or_ge (f + 1) (2 ^ p) with hsame | hcarry
  · rcases E with - | e
    · rw [Nat.zero_mul, Nat.zero_add, units_of_lt hlt, units_of_lt hsame]
      rfl
    · rw [Nat.add_assoc, units_of_exponent hlt, units_of_exponent hsame, Nat.add_sub_cancel,
        ← Nat.add_assoc, Nat.add_mul (2 ^ p + f) 1, Nat.one_mul]
  · -- the fraction is full, and the exponent changes
    obtain rfl : f = 2 ^ p - 1 := by omega
    have hnext : E * 2 ^ p + (2 ^ p - 1) + 1 = (E + 1) * 2 ^ p + 0 := by
      rw [Nat.add_mul]
      omega
    rw [hnext, units_of_exponent hpos, Nat.add_zero]
    rcases E with - | e
    · rw [Nat.zero_mul, Nat.zero_add, units_of_lt hlt]
      show 2 ^ p * 1 = 2 ^ p - 1 + 1
      omega
    · rw [units_of_exponent hlt, Nat.add_sub_cancel, ← Nat.succ_mul]
      have : (2 ^ p + (2 ^ p - 1)).succ = 2 ^ p * 2 := by omega
      rw [this, Nat.mul_assoc, pow_succ']

theorem units_strictMono (p : ℕ) : StrictMono (units p) :=
  strictMono_nat_of_lt_succ fun m => by
    rw [units_succ]
    exact Nat.lt_add_of_pos_right (Nat.two_pow_pos _)

end NearestEven
