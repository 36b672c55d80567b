/-
MoVeBench/Lib/AvlTree.lean

Balanced binary trees, and a place inside of one.

A tree with a hole is the list of the frames from the hole up to the root: on which side of a node
the hole is, the label of the node, and its other subtree (`plug` fills the hole).

* The labels of a filled tree in order are those on the left of the hole, those that fill it and
  those on its right (`toList_plug`).
* A balanced tree is a balanced one in a hole that fits its height (`Balanced.plug`); when the height
  of a subtree changes by one, `Tilts` says what that leaves to do at the node above.
-/
import Mathlib

namespace AvlTree

/-- The two sides of a node. -/
inductive Side where
  | before
  | after
deriving DecidableEq

/-- The opposite side. -/
def Side.other : Side → Side
  | before => after
  | after => before

@[simp] theorem Side.other_other (d : Side) : d.other.other = d := by cases d <;> rfl

inductive BinTree (α : Type*) where
  | nil
  | node (l : BinTree α) (a : α) (r : BinTree α)

variable {α : Type*}

namespace BinTree

/-- The node with `t` on side `d` and `s` on the other. -/
def mk (d : Side) (t : BinTree α) (a : α) (s : BinTree α) : BinTree α :=
  match d with
  | .before => node t a s
  | .after => node s a t

theorem mk_other (d : Side) (t : BinTree α) (a : α) (s : BinTree α) :
    mk d.other t a s = mk d s a t := by
  cases d <;> rfl

def height : BinTree α → ℕ
  | nil => 0
  | node l _ r => max l.height r.height + 1

/-- The labels from the left to the right. -/
def toList : BinTree α → List α
  | nil => []
  | node l a r => l.toList ++ a :: r.toList

/-- At each node the heights of the subtrees differ by one at most. -/
def Balanced : BinTree α → Prop
  | nil => True
  | node l _ r => (l.height ≤ r.height + 1 ∧ r.height ≤ l.height + 1) ∧ l.Balanced ∧ r.Balanced

@[simp] theorem height_nil : height (nil : BinTree α) = 0 := rfl

@[simp] theorem height_mk (d : Side) (t : BinTree α) (a : α) (s : BinTree α) :
    (mk d t a s).height = max t.height s.height + 1 := by
  cases d
  · rfl
  · exact congrArg (· + 1) (max_comm _ _)

@[simp] theorem toList_nil : toList (nil : BinTree α) = [] := rfl

theorem toList_mk (d : Side) (t : BinTree α) (a : α) (s : BinTree α) : (mk d t a s).toList =
    (match d with
      | .before => t.toList ++ a :: s.toList
      | .after => s.toList ++ a :: t.toList) := by
  cases d <;> rfl

theorem balanced_mk {d : Side} {t s : BinTree α} {a : α} : (mk d t a s).Balanced ↔
    (t.height ≤ s.height + 1 ∧ s.height ≤ t.height + 1) ∧ t.Balanced ∧ s.Balanced := by
  cases d
  · exact Iff.rfl
  · show _ ∧ _ ↔ _
    tauto

theorem height_eq_zero {t : BinTree α} : t.height = 0 ↔ t = nil := by
  cases t <;> simp [height]

theorem height_le_length (t : BinTree α) : t.height ≤ t.toList.length := by
  induction t with
  | nil => exact le_refl 0
  | node l a r ihl ihr =>
      rw [height, toList, List.length_append, List.length_cons]
      omega

/-- A balanced tree of a given height has at least as many labels as a Fibonacci tree. -/
theorem Balanced.fib_le {t : BinTree α} (h : t.Balanced) :
    Nat.fib (t.height + 2) ≤ t.toList.length + 1 := by
  induction t with
  | nil => exact le_refl 1
  | node l a r ihl ihr =>
      obtain ⟨⟨hlr, hrl⟩, hl, hr⟩ := h
      have hfib : ∀ k, Nat.fib (k + 3) = Nat.fib (k + 1) + Nat.fib (k + 2) := fun k =>
        Nat.fib_add_two
      have hl := ihl hl
      have hr := ihr hr
      have hlow : ∀ {t s : BinTree α}, t.height ≤ s.height + 1 →
          Nat.fib (t.height + 1) ≤ Nat.fib (s.height + 2) := fun h => Nat.fib_mono (by omega)
      have hl' := hlow hlr
      have hr' := hlow hrl
      rw [height, toList, List.length_append, List.length_cons]
      rcases le_total l.height r.height with hle | hle
      · rw [max_eq_right hle, hfib]
        omega
      · rw [max_eq_left hle, hfib]
        omega

/-- A tree with a node has it on the side of its heavier subtree as on any other. -/
theorem exists_mk (d : Side) {t : BinTree α} (h : t ≠ nil) : ∃ s a r, t = mk d s a r := by
  cases t with
  | nil => exact absurd rfl h
  | node l a r =>
      cases d
      · exact ⟨l, a, r, rfl⟩
      · exact ⟨r, a, l, rfl⟩

/-- The two rotations keep the order of the labels. -/
theorem toList_rotate (d : Side) (x y z : BinTree α) (b p : α) :
    (mk d x b (mk d y p z)).toList = (mk d (mk d x b y) p z).toList := by
  cases d <;> simp [mk, toList]

theorem mem_mk {d : Side} {t s : BinTree α} {a b : α} :
    b ∈ (mk d t a s).toList ↔ b ∈ t.toList ∨ b = a ∨ b ∈ s.toList := by
  cases d <;> simp only [mk, toList, List.mem_append, List.mem_cons]
  tauto

theorem nodup_mk {d : Side} {t s : BinTree α} {a : α} : (mk d t a s).toList.Nodup ↔
    t.toList.Nodup ∧ s.toList.Nodup ∧ a ∉ t.toList ∧ a ∉ s.toList ∧
      ∀ b ∈ t.toList, b ∉ s.toList := by
  have hdisj : ∀ l m : List α, (∀ b ∈ l, b ∉ m) ↔ ∀ b ∈ m, b ∉ l := fun l m =>
    ⟨fun h b hm hl => h b hl hm, fun h b hl hm => h b hm hl⟩
  cases d <;> simp only [mk, toList, List.nodup_append, List.nodup_cons, List.mem_cons, ne_eq] <;>
    grind

end BinTree

open BinTree

/-! ### A place in a tree -/

/-- A node above the hole: the side on which the hole is, the label, the other subtree. -/
structure Frame (α : Type*) where
  side : Side
  label : α
  sibling : BinTree α

/-- Fill the hole. -/
def plug (t : BinTree α) : List (Frame α) → BinTree α
  | [] => t
  | f :: ctx => plug (mk f.side t f.label f.sibling) ctx

/-- The labels on side `d` of the hole, in the order of the tree. -/
def beside (d : Side) : List (Frame α) → List α
  | [] => []
  | f :: ctx =>
      let own := if f.side = d then [] else match d with
        | .before => f.sibling.toList ++ [f.label]
        | .after => f.label :: f.sibling.toList
      match d with
        | .before => beside d ctx ++ own
        | .after => own ++ beside d ctx

theorem toList_plug (t : BinTree α) (ctx : List (Frame α)) :
    (plug t ctx).toList = beside .before ctx ++ t.toList ++ beside .after ctx := by
  induction ctx generalizing t with
  | nil => simp [plug, beside]
  | cons f ctx ih =>
      obtain ⟨d, a, s⟩ := f
      rw [plug, ih]
      cases d <;> simp [mk, toList, beside]

theorem plug_append (t : BinTree α) (ctx ctx' : List (Frame α)) :
    plug t (ctx ++ ctx') = plug (plug t ctx) ctx' := by
  induction ctx generalizing t with
  | nil => rfl
  | cons f ctx ih => exact ih _

/-- The labels around the hole. -/
def around (ctx : List (Frame α)) : List α := ctx.flatMap fun f => f.label :: f.sibling.toList

@[simp] theorem around_cons (f : Frame α) (ctx : List (Frame α)) :
    around (f :: ctx) = f.label :: (f.sibling.toList ++ around ctx) := by simp [around]

theorem perm_plug (t : BinTree α) (ctx : List (Frame α)) :
    (plug t ctx).toList.Perm (t.toList ++ around ctx) := by
  induction ctx generalizing t with
  | nil => simp [plug, around]
  | cons f ctx ih =>
      have hmk : (mk f.side t f.label f.sibling).toList.Perm
          (t.toList ++ f.label :: f.sibling.toList) := by
        obtain ⟨d, a, s⟩ := f
        cases d
        · exact List.Perm.refl _
        · simp only [mk, toList]
          refine List.perm_middle.trans (List.Perm.trans ?_ List.perm_middle.symm)
          exact List.perm_append_comm.cons a
      rw [plug, around_cons]
      refine (ih _).trans ((hmk.append_right _).trans ?_)
      rw [List.append_assoc, List.cons_append]

theorem nodup_plug {t : BinTree α} {ctx : List (Frame α)} : (plug t ctx).toList.Nodup ↔
    t.toList.Nodup ∧ (around ctx).Nodup ∧ ∀ a ∈ t.toList, a ∉ around ctx := by
  rw [(perm_plug t ctx).nodup_iff, List.nodup_append]
  refine and_congr_right fun _ => and_congr_right fun _ => ?_
  exact ⟨fun h a ha hb => h a ha a hb rfl, fun h a ha b hb hab => h a ha (hab ▸ hb)⟩

theorem mem_plug {t : BinTree α} {ctx : List (Frame α)} {a : α} :
    a ∈ (plug t ctx).toList ↔ a ∈ t.toList ∨ a ∈ around ctx := by
  rw [(perm_plug t ctx).mem_iff, List.mem_append]

@[simp] theorem around_append (ctx ctx' : List (Frame α)) :
    around (ctx ++ ctx') = around ctx ++ around ctx' := List.flatMap_append

theorem length_le_around (ctx : List (Frame α)) : ctx.length ≤ (around ctx).length := by
  induction ctx with
  | nil => exact Nat.zero_le _
  | cons f ctx ih =>
      rw [around_cons, List.length_cons, List.length_cons, List.length_append]
      omega

/-- The hole may be made at any node. -/
theorem exists_plug {t : BinTree α} {a : α} (h : a ∈ t.toList) :
    ∃ l r ctx, t = plug (node l a r) ctx := by
  induction t with
  | nil => simp at h
  | node l b r ihl ihr =>
      rcases mem_mk (d := .before).mp h with h | rfl | h
      · obtain ⟨l', r', ctx, rfl⟩ := ihl h
        exact ⟨l', r', ctx ++ [⟨.before, b, r⟩], by rw [plug_append]; rfl⟩
      · exact ⟨l, r, [], rfl⟩
      · obtain ⟨l', r', ctx, rfl⟩ := ihr h
        exact ⟨l', r', ctx ++ [⟨.after, b, l⟩], by rw [plug_append]; rfl⟩

/-- The labels in the order of a walk to the side `d`. -/
def listTo (d : Side) (t : BinTree α) : List α :=
  match d with
  | .before => t.toList.reverse
  | .after => t.toList

theorem listTo_mk (d : Side) (t : BinTree α) (a : α) (s : BinTree α) :
    listTo d (mk d t a s) = listTo d s ++ a :: listTo d t := by
  cases d <;> simp [listTo, mk, toList]

@[simp] theorem mem_listTo {d : Side} {t : BinTree α} {a : α} : a ∈ listTo d t ↔ a ∈ t.toList := by
  cases d <;> simp [listTo]

theorem nodup_listTo {d : Side} {t : BinTree α} : (listTo d t).Nodup ↔ t.toList.Nodup := by
  cases d <;> simp [listTo]

theorem length_listTo (d : Side) (t : BinTree α) : (listTo d t).length = t.toList.length := by
  cases d <;> simp [listTo]

/-- What a walk to the side `d` finds behind the hole. -/
def onward (d : Side) : List (Frame α) → List α
  | [] => []
  | f :: ctx => (if f.side = d then [] else f.label :: listTo d f.sibling) ++ onward d ctx

theorem listTo_plug (d : Side) (t : BinTree α) (ctx : List (Frame α)) :
    ∃ l, listTo d (plug t ctx) = l ++ listTo d t ++ onward d ctx := by
  induction ctx generalizing t with
  | nil => exact ⟨[], by simp [plug, onward]⟩
  | cons f ctx ih =>
      obtain ⟨e, a, s⟩ := f
      obtain ⟨l, hl⟩ := ih (mk e t a s)
      rw [plug, onward]
      by_cases he : e = d
      · subst he
        refine ⟨l ++ listTo e s ++ [a], ?_⟩
        rw [hl, listTo_mk, if_pos rfl]
        simp
      · obtain rfl : e = d.other := by
          cases e <;> cases d <;> simp_all [Side.other]
        refine ⟨l, ?_⟩
        rw [hl, mk_other, listTo_mk, if_neg he]
        simp

/-- Nothing is on side `d` of a hole that is itself on side `d` of every node above. -/
theorem beside_own {d : Side} {ctx : List (Frame α)} (h : ∀ f ∈ ctx, f.side = d) :
    beside d ctx = [] := by
  induction ctx with
  | nil => rfl
  | cons f ctx ih =>
      rw [List.forall_mem_cons] at h
      cases d <;> simp only [beside, ih h.2, if_pos h.1, List.append_nil]

/-- A tree whose hole is at its first node. -/
theorem toList_first {t : BinTree α} {a : α} {ctx : List (Frame α)}
    (h : ∀ f ∈ ctx, f.side = .before) :
    (plug (node nil a t) ctx).toList = a :: (plug t ctx).toList := by
  simp only [toList_plug, beside_own h, toList, List.nil_append, List.cons_append]

/-- The labels without that of one node. -/
theorem erase_plug [DecidableEq α] {t s : BinTree α} {a : α} {ctx : List (Frame α)}
    (hn : (plug (node t a s) ctx).toList.Nodup) : (plug (node t a s) ctx).toList.erase a =
      beside .before ctx ++ (t.toList ++ s.toList) ++ beside .after ctx := by
  have hlist : (plug (node t a s) ctx).toList =
      (beside .before ctx ++ t.toList) ++ a :: (s.toList ++ beside .after ctx) := by
    simp [toList_plug, toList]
  rw [hlist] at hn ⊢
  have ha : a ∉ beside .before ctx ++ t.toList := fun hm =>
    List.disjoint_of_nodup_append hn hm List.mem_cons_self
  rw [List.erase_append_right _ ha, List.erase_cons_head]
  simp

/-- A tree of height `h` fits the hole: all nodes above are balanced then. -/
def Fits : ℕ → List (Frame α) → Prop
  | _, [] => True
  | h, f :: ctx => (h ≤ f.sibling.height + 1 ∧ f.sibling.height ≤ h + 1) ∧ f.sibling.Balanced ∧
      Fits (max h f.sibling.height + 1) ctx

theorem balanced_plug {t : BinTree α} {ctx : List (Frame α)} :
    (plug t ctx).Balanced ↔ t.Balanced ∧ Fits t.height ctx := by
  induction ctx generalizing t with
  | nil => simp [plug, Fits]
  | cons f ctx ih =>
      rw [plug, ih, balanced_mk, height_mk, Fits]
      tauto

/-- The labels do not matter. -/
theorem fits_relabel {h : ℕ} {d : Side} {a : α} (b : α) {t : BinTree α} {ctx ctx' : List (Frame α)}
    (hf : Fits h (ctx ++ ⟨d, a, t⟩ :: ctx')) : Fits h (ctx ++ ⟨d, b, t⟩ :: ctx') := by
  induction ctx generalizing h with
  | nil => exact hf
  | cons f ctx ih => exact ⟨hf.1, hf.2.1, ih hf.2.2⟩

/-- Subtrees of the heights `x` and `y` stand where a tree of height `h` fitted: the heights differ
by two at most, and the balanced tree of both differs from `h` by one at most. -/
structure Tilts (x y h : ℕ) : Prop where
  left : x ≤ y + 2
  right : y ≤ x + 2
  near : x ≤ y + 1 → y ≤ x + 1 → max x y ≤ h ∧ h ≤ max x y + 2
  far : y + 2 ≤ x ∨ x + 2 ≤ y → max x y ≤ h ∧ h ≤ max x y + 1

theorem Tilts.symm {x y h : ℕ} (ht : Tilts x y h) : Tilts y x h := by
  obtain ⟨h1, h2, h3, h4⟩ := ht
  refine ⟨h2, h1, fun h5 h6 => ?_, fun h5 => ?_⟩
  · rw [max_comm]
    exact h3 h6 h5
  · rw [max_comm]
    exact h4 h5.symm

/-- One subtree of a balanced node changes its height from `h` to `x`. -/
theorem tilts_of_near {x h y : ℕ} (hx : x ≤ h + 1 ∧ h ≤ x + 1) (hy : h ≤ y + 1 ∧ y ≤ h + 1) :
    Tilts x y (max h y + 1) := by
  refine ⟨by omega, by omega, ?_, ?_⟩ <;> omega

end AvlTree
