/-
MoVeBench/Lib/LexCode.lean

Order-preserving codes over an ordered alphabet.  A code word is a list of
letters; code words are compared letter by letter, and a proper prefix comes
first (`List.compareLex compare`, what `memcmp` plus a length comparison
computes on bytes).

The central notion is

    Diverges o l m

"the words `l` and `m` are equal (and `o` is `.eq`), or they part inside both
words, at two letters that compare as `o`".  In particular neither word is a
proper prefix of the other, so whatever is appended to them cannot change the
verdict (`Diverges.compareLex_append`).  This makes the notion compose: codes
of tuples are concatenations (`Diverges.append`), an order-reversing map of the
alphabet reverses the order of the code (`Diverges.map_swap`), and two ways of
closing a word give divergence: a terminator below every letter, and a first
letter that decides.
-/
import Mathlib

namespace LexCode

variable {β : Type*} [Ord β]

/-- A strictly monotone map keeps every verdict. -/
theorem compare_map {α γ : Type*} [LinearOrder α] [LinearOrder γ] {f : α → γ}
    (hf : StrictMono f) (x y : α) : compare (f x) (f y) = compare x y := by
  rw [← cmp_eq_compare, ← cmp_eq_compare]
  exact hf.cmp_map_eq x y

/-- A strictly antitone map turns every verdict round. -/
theorem compare_map_anti {α γ : Type*} [LinearOrder α] [LinearOrder γ] {f : α → γ}
    (hf : StrictAnti f) (x y : α) : compare (f x) (f y) = compare y x := by
  rw [← cmp_eq_compare, ← cmp_eq_compare]
  exact hf.cmp_map_eq x y

/-- Points on different sides of a pivot compare through it. -/
theorem compare_of_pivot {α : Type*} [LinearOrder α] {x y z : α}
    (h : compare x z ≠ compare y z) : compare x y = (compare x z).then (compare z y) := by
  rcases lt_trichotomy x z with hx | hx | hx
  · rw [compare_lt_iff_lt.mpr hx] at h ⊢
    have hy : z ≤ y := not_lt.mp fun hy => h (compare_lt_iff_lt.mpr hy).symm
    exact compare_lt_iff_lt.mpr (hx.trans_le hy)
  · rw [hx, compare_eq_iff_eq.mpr rfl]
    rfl
  · rw [compare_gt_iff_gt.mpr hx] at h ⊢
    have hy : y ≤ z := not_lt.mp fun hy => h (compare_gt_iff_gt.mpr hy).symm
    exact compare_gt_iff_gt.mpr (hy.trans_lt hx)

/-- Two pairs that lie alike with respect to a pivot, and on different sides of
it, compare alike. -/
theorem compare_pivot {α γ : Type*} [LinearOrder α] [LinearOrder γ] {x y z : α}
    {u v w : γ} (hx : compare x z = compare u w) (hy : compare y z = compare v w)
    (h : compare x z ≠ compare y z) : compare x y = compare u v := by
  have h' : compare u w ≠ compare v w := by rwa [← hx, ← hy]
  have hy' : compare z y = compare w v := by
    have hy1 : compare z y = (compare y z).swap := Std.OrientedOrd.eq_swap
    have hw1 : compare w v = (compare v w).swap := Std.OrientedOrd.eq_swap
    rw [hy1, hw1, hy]
  rw [compare_of_pivot h, compare_of_pivot h', hx, hy']

/-! ### Words that part inside both -/

/-- `l` and `m` are equal, or part inside both words at letters that compare
as `o`. -/
inductive Diverges : Ordering → List β → List β → Prop
  | same (l : List β) : Diverges .eq l l
  | split {o : Ordering} (p : List β) {u v : β} (s t : List β) :
      compare u v = o → o ≠ .eq → Diverges o (p ++ u :: s) (p ++ v :: t)

theorem Diverges.cons {o : Ordering} {l m : List β} (u : β)
    (h : Diverges o l m) : Diverges o (u :: l) (u :: m) := by
  cases h with
  | same l => exact .same (u :: l)
  | split p s t huv ho => exact .split (u :: p) s t huv ho

/-- Two words whose first letters differ diverge, whatever follows. -/
theorem Diverges.head {o : Ordering} {u v : β} (s t : List β)
    (huv : compare u v = o) (ho : o ≠ .eq) :
    Diverges o (u :: s) (v :: t) :=
  .split [] s t huv ho

theorem Diverges.append_left {o : Ordering} {l m : List β} (p : List β)
    (h : Diverges o l m) : Diverges o (p ++ l) (p ++ m) := by
  induction p with
  | nil => exact h
  | cons u p ih => exact ih.cons u

/-- Concatenation of codes is the lexicographic product of their orders. -/
theorem Diverges.append {o o' : Ordering} {l m x y : List β}
    (h : Diverges o l m) (h' : Diverges o' x y) :
    Diverges (o.then o') (l ++ x) (m ++ y) := by
  cases h with
  | same l => exact h'.append_left l
  | @split _ p u v s t huv ho =>
      have hthen : o.then o' = o := by cases o <;> first | rfl | exact absurd rfl ho
      rw [hthen, List.append_assoc, List.append_assoc]
      exact .split p (s ++ x) (t ++ y) huv ho

theorem Diverges.swap [Std.OrientedOrd β] {o : Ordering} {l m : List β}
    (h : Diverges o l m) : Diverges o.swap m l := by
  cases h with
  | same l => exact .same l
  | split p s t huv ho =>
      refine .split p t s ?_ ?_
      · rw [Std.OrientedOrd.eq_swap, huv]
      · cases o <;> simp_all [Ordering.swap]

/-- An order-reversing map of the alphabet reverses the code's order. -/
theorem Diverges.map_swap {γ : Type*} [Ord γ] {f : β → γ}
    (hf : ∀ u v, compare (f u) (f v) = (compare u v).swap)
    {o : Ordering} {l m : List β} (h : Diverges o l m) :
    Diverges o.swap (l.map f) (m.map f) := by
  cases h with
  | same l => exact .same _
  | split p s t huv ho =>
      simp only [List.map_append, List.map_cons]
      refine .split (p.map f) _ _ ?_ ?_
      · rw [hf, huv]
      · cases o <;> simp_all [Ordering.swap]

/-! ### Reading the verdict back -/

section Lawful

variable [Std.ReflOrd β]

theorem compareLex_append_left (p x y : List β) :
    (p ++ x).compareLex compare (p ++ y) = x.compareLex compare y := by
  induction p with
  | nil => rfl
  | cons u p ih =>
      rw [List.cons_append, List.cons_append, List.compareLex_cons_cons,
        Std.ReflOrd.compare_self, ih]
      rfl

/-- The verdict of diverging words survives any continuation of the two. -/
theorem Diverges.compareLex_append {o : Ordering} {l m : List β}
    (h : Diverges o l m) (x y : List β) :
    (l ++ x).compareLex compare (m ++ y) = o.then (x.compareLex compare y) := by
  cases h with
  | same l => exact compareLex_append_left l x y
  | @split _ p u v s t huv ho =>
      rw [List.append_assoc, List.append_assoc, compareLex_append_left,
        List.cons_append, List.cons_append, List.compareLex_cons_cons, huv]
      cases o <;> first | rfl | exact absurd rfl ho

theorem Diverges.compareLex_eq {o : Ordering} {l m : List β}
    (h : Diverges o l m) : l.compareLex compare m = o := by
  have key := h.compareLex_append [] []
  rw [List.append_nil, List.append_nil, List.compareLex_nil_nil,
    Ordering.then_eq] at key
  exact key

end Lawful

section LawfulEq

variable [Std.LawfulEqOrd β]

/-- A terminator below every letter makes the lexicographic order of arbitrary
words a diverging one: the shorter of two comparable words meets the
terminator first. -/
theorem Diverges.terminated [Std.OrientedOrd β] {z : β} {l m : List β}
    (hl : ∀ u ∈ l, compare z u = .lt) (hm : ∀ u ∈ m, compare z u = .lt) :
    Diverges (l.compareLex compare m) (l ++ [z]) (m ++ [z]) := by
  induction l generalizing m with
  | nil =>
      rcases m with - | ⟨v, m⟩
      · exact .same [z]
      · exact .head [] _ (hm v (by simp)) (by simp)
  | cons u l ih =>
      rcases m with - | ⟨v, m⟩
      · refine .head _ [] ?_ (by simp)
        rw [Std.OrientedOrd.eq_swap (a := u), hl u (by simp)]
        rfl
      rw [List.compareLex_cons_cons]
      rcases huv : compare u v with - | - | -
      · exact .head _ _ huv (by simp)
      · obtain rfl := Std.LawfulEqOrd.eq_of_compare huv
        exact (ih (fun w hw => hl w (by simp [hw]))
          (fun w hw => hm w (by simp [hw]))).cons u
      · exact .head _ _ huv (by simp)

theorem compareLex_eq_eq_iff {l m : List β} :
    l.compareLex compare m = .eq ↔ l = m := by
  constructor
  · intro h
    induction l generalizing m with
    | nil => cases m <;> simp_all [List.compareLex_nil_cons]
    | cons u l ih =>
        rcases m with - | ⟨v, m⟩
        · simp [List.compareLex_cons_nil] at h
        · rw [List.compareLex_cons_cons, Ordering.then_eq_eq] at h
          rw [Std.LawfulEqOrd.eq_of_compare h.1, ih h.2]
  · rintro rfl
    have key := compareLex_append_left l [] []
    rwa [List.append_nil, List.compareLex_nil_nil] at key

end LawfulEq

/-! ### Proper prefixes -/

/-- A word precedes every proper extension of it. -/
theorem compareLex_prefix [Std.ReflOrd β] (l : List β) (u : β) (s : List β) :
    l.compareLex compare (l ++ u :: s) = .lt := by
  have := compareLex_append_left l [] (u :: s)
  rwa [List.append_nil, List.compareLex_nil_cons] at this

/-- A proper extension of a word comes after it. -/
theorem compareLex_extension [Std.ReflOrd β] (l : List β) (u : β) (s : List β) :
    (l ++ u :: s).compareLex compare l = .gt := by
  have := compareLex_append_left l (u :: s) []
  rwa [List.append_nil, List.compareLex_cons_nil] at this

/-- Of two diverging words neither is a proper prefix of the other. -/
theorem Diverges.eq_of_prefix [Std.ReflOrd β] {o : Ordering} {l m : List β}
    (h : Diverges o l m) (hlm : l <+: m) : l = m := by
  cases h with
  | same l => rfl
  | split p s t huv ho =>
      rw [List.prefix_append_right_inj, List.cons_prefix_cons] at hlm
      rw [hlm.1, Std.ReflOrd.compare_self] at huv
      exact absurd huv.symm ho

/-- Two words either diverge or one is a proper prefix of the other. -/
theorem diverges_or_prefix [Std.LawfulEqOrd β] (l m : List β) :
    Diverges (l.compareLex compare m) l m ∨
      (∃ u s, m = l ++ u :: s) ∨ ∃ u s, l = m ++ u :: s := by
  induction l generalizing m with
  | nil =>
      rcases m with - | ⟨v, m⟩
      · exact .inl (.same [])
      · exact .inr (.inl ⟨v, m, rfl⟩)
  | cons u l ih =>
      rcases m with - | ⟨v, m⟩
      · exact .inr (.inr ⟨u, l, rfl⟩)
      rw [List.compareLex_cons_cons]
      rcases huv : compare u v with - | - | -
      · exact .inl (.head l m huv (by simp))
      · obtain rfl := Std.LawfulEqOrd.eq_of_compare huv
        rcases ih m with h | ⟨w, s, rfl⟩ | ⟨w, s, rfl⟩
        · exact .inl (h.cons u)
        · exact .inr (.inl ⟨w, s, rfl⟩)
        · exact .inr (.inr ⟨w, s, rfl⟩)
      · exact .inl (.head l m huv (by simp))

/-! ### Words between a prefix and its extensions -/

section Between

variable {α : Type*} [LinearOrder α]

/-- A word comes before its extensions. -/
theorem le_append (p s : List α) : p ≤ p ++ s := by
  refine not_lt.mp fun h => ?_
  induction p with
  | nil => exact List.not_lt_nil _ h
  | cons u p ih =>
      rw [List.cons_append, List.cons_lt_cons_iff] at h
      rcases h with h | ⟨-, h⟩
      · exact lt_irrefl u h
      · exact ih h

/-- What lies between a word and an extension of it has the word as a prefix. -/
theorem prefix_of_between {p k s : List α} (h : p ≤ k) (h' : k ≤ p ++ s) : p <+: k := by
  replace h := not_lt.mpr h
  replace h' := not_lt.mpr h'
  induction p generalizing k with
  | nil => exact List.nil_prefix
  | cons u p ih =>
      rcases k with - | ⟨v, k⟩
      · exact absurd (List.nil_lt_cons u p) h
      · rw [List.cons_append, List.cons_lt_cons_iff, not_or, not_and] at h'
        rw [List.cons_lt_cons_iff, not_or, not_and] at h
        obtain rfl : u = v := le_antisymm (not_lt.mp h.1) (not_lt.mp h'.1)
        exact List.cons_prefix_cons.mpr ⟨rfl, ih (h.2 rfl) (h'.2 rfl)⟩

end Between

end LexCode
