/-
MoVeBench/Lsm/TreeNode.lean

Nodes of the in-memory tree, and paths to them.

The model is of the working version: a node has three key slots and four child
pointers, one of which may be overridden by the version 2 data of the node.  A
pointer is the node it points to, `null` if it is zero.  The path of a cursor lists
the nodes from the current one to the root, each with its cell; writing to a node in
place is rebuilding the nodes above it.
-/
import Mathlib

namespace MoVeBench

namespace Lsm

variable {E : Type}

/-! ### Nodes -/

/-- `TreeNode`, and `TreeLeaf` with zero child pointers.  `iV2Child` is `none` where
there is no version 2 data (`iV2==0`). -/
inductive TreeNode (E : Type)
  | null
  | node (k0 k1 k2 : Option E) (c0 c1 c2 c3 : TreeNode E) (iV2Child : Option ℕ)
      (iV2Ptr : TreeNode E)

namespace TreeNode

/-- A new node. -/
def new (k0 k1 k2 : Option E) (c0 c1 c2 c3 : TreeNode E) : TreeNode E :=
  node k0 k1 k2 c0 c1 c2 c3 none null

/-- `aiKeyPtr[i]`. -/
def key : TreeNode E → ℕ → Option E
  | node k0 _ _ _ _ _ _ _ _, 0 => k0
  | node _ k1 _ _ _ _ _ _ _, 1 => k1
  | node _ _ k2 _ _ _ _ _ _, 2 => k2
  | _, _ => none

/-- `aiChildPtr[i]`. -/
def aiChildPtr : TreeNode E → ℕ → TreeNode E
  | node _ _ _ c0 _ _ _ _ _, 0 => c0
  | node _ _ _ _ c1 _ _ _ _, 1 => c1
  | node _ _ _ _ _ c2 _ _ _, 2 => c2
  | node _ _ _ _ _ _ c3 _ _, 3 => c3
  | _, _ => null

/-- `getChildPtr` with `WORKING_VERSION`. -/
def getChildPtr (p : TreeNode E) (i : ℕ) : TreeNode E :=
  match p with
  | null => null
  | node _ _ _ _ _ _ _ iV2Child iV2Ptr => if iV2Child = some i then iV2Ptr else p.aiChildPtr i

/-- `iV2`: whether there is version 2 data. -/
def hasV2 : TreeNode E → Bool
  | null => false
  | node _ _ _ _ _ _ _ iV2Child _ => iV2Child.isSome

/-- `copyTreeNode`, `copyTreeLeaf`: a copy without version 2 data. -/
def copy (p : TreeNode E) : TreeNode E :=
  match p with
  | null => null
  | node k0 k1 k2 _ _ _ _ _ _ =>
      new k0 k1 k2 (p.getChildPtr 0) (p.getChildPtr 1) (p.getChildPtr 2) (p.getChildPtr 3)

/-- `aiKeyPtr[i] = k`. -/
def setKey : TreeNode E → ℕ → Option E → TreeNode E
  | node _ k1 k2 c0 c1 c2 c3 v w, 0, k => node k k1 k2 c0 c1 c2 c3 v w
  | node k0 _ k2 c0 c1 c2 c3 v w, 1, k => node k0 k k2 c0 c1 c2 c3 v w
  | node k0 k1 _ c0 c1 c2 c3 v w, 2, k => node k0 k1 k c0 c1 c2 c3 v w
  | p, _, _ => p

/-- `aiChildPtr[i] = c`. -/
def setChild : TreeNode E → ℕ → TreeNode E → TreeNode E
  | node k0 k1 k2 _ c1 c2 c3 v w, 0, c => node k0 k1 k2 c c1 c2 c3 v w
  | node k0 k1 k2 c0 _ c2 c3 v w, 1, c => node k0 k1 k2 c0 c c2 c3 v w
  | node k0 k1 k2 c0 c1 _ c3 v w, 2, c => node k0 k1 k2 c0 c1 c c3 v w
  | node k0 k1 k2 c0 c1 c2 _ v w, 3, c => node k0 k1 k2 c0 c1 c2 c v w
  | p, _, _ => p

/-- Version 2 data is written. -/
def setV2 : TreeNode E → ℕ → TreeNode E → TreeNode E
  | null, _, _ => null
  | node k0 k1 k2 c0 c1 c2 c3 _ _, i, c => node k0 k1 k2 c0 c1 c2 c3 (some i) c

/-- The node that the working pointer `i` points to has been written to. -/
def setWorking : TreeNode E → ℕ → TreeNode E → TreeNode E
  | null, _, _ => null
  | node k0 k1 k2 c0 c1 c2 c3 v w, i, c =>
      if v = some i then node k0 k1 k2 c0 c1 c2 c3 v c
      else (node k0 k1 k2 c0 c1 c2 c3 v w).setChild i c

/-- The entries below a node, in order. -/
def toList : TreeNode E → List E
  | null => []
  | node k0 k1 k2 c0 c1 c2 c3 v w =>
      (if v = some 0 then toList w else toList c0) ++ k0.toList ++
        (if v = some 1 then toList w else toList c1) ++ k1.toList ++
        (if v = some 2 then toList w else toList c2) ++ k2.toList ++
        (if v = some 3 then toList w else toList c3)

/-- The entries left of the child `i`. -/
def leftOf (p : TreeNode E) : ℕ → List E
  | 0 => []
  | i + 1 => leftOf p i ++ (p.getChildPtr i).toList ++ (p.key i).toList

/-- The entries right of the child `i`. -/
def rightOf (p : TreeNode E) : ℕ → List E
  | 0 => (p.key 0).toList ++ (p.getChildPtr 1).toList ++ (p.key 1).toList ++
      (p.getChildPtr 2).toList ++ (p.key 2).toList ++ (p.getChildPtr 3).toList
  | 1 => (p.key 1).toList ++ (p.getChildPtr 2).toList ++ (p.key 2).toList ++
      (p.getChildPtr 3).toList
  | 2 => (p.key 2).toList ++ (p.getChildPtr 3).toList
  | _ => []

/-- A child pointer is in use if there is a key next to it. -/
def used (p : TreeNode E) : ℕ → Bool
  | 0 => (p.key 0).isSome
  | 1 => true
  | 2 => true
  | 3 => (p.key 2).isSome
  | _ => false

/-- A tree of height `h`: all leaves at the same depth, the middle key of each node
present, and unused child pointers zero. -/
def Balanced : ℕ → TreeNode E → Prop
  | 0, p => p = null
  | h + 1, p => (p.key 1).isSome ∧
      ∀ i < 4, if p.used i then Balanced h (p.getChildPtr i) else p.getChildPtr i = null

section Nodes

variable {p c : TreeNode E} {i j h : ℕ}

theorem toList_eq (p : TreeNode E) : p.toList =
    (p.getChildPtr 0).toList ++ (p.key 0).toList ++ (p.getChildPtr 1).toList ++
      (p.key 1).toList ++ (p.getChildPtr 2).toList ++ (p.key 2).toList ++
      (p.getChildPtr 3).toList := by
  cases p with
  | null => rfl
  | node k0 k1 k2 c0 c1 c2 c3 v w =>
      have h : ∀ (i : ℕ) (c : TreeNode E), (if v = some i then w else c).toList =
          if v = some i then w.toList else c.toList := fun i c => apply_ite toList _ _ _
      simp only [toList, getChildPtr, aiChildPtr, key, h]

theorem toList_split (hi : i < 4) :
    p.toList = p.leftOf i ++ (p.getChildPtr i).toList ++ p.rightOf i := by
  rw [toList_eq]
  match i, hi with
  | 0, _ => simp [leftOf, rightOf]
  | 1, _ => simp [leftOf, rightOf]
  | 2, _ => simp [leftOf, rightOf]
  | 3, _ => simp [leftOf, rightOf]

/-- Around a key. -/
theorem toList_split_key (hi : i < 3) : p.toList = p.leftOf i ++ (p.getChildPtr i).toList ++
    (p.key i).toList ++ (p.getChildPtr (i + 1)).toList ++ p.rightOf (i + 1) := by
  rw [toList_split (i := i) (by omega)]
  match i, hi with
  | 0, _ => simp [leftOf, rightOf]
  | 1, _ => simp [leftOf, rightOf]
  | 2, _ => simp [leftOf, rightOf]

theorem Balanced.ne_null (hp : Balanced (h + 1) p) : p ≠ null := by
  rintro rfl
  cases hp.1

/-! #### Writing to a node -/

/-- `q` looks like `p`, but its child `i` is `c`. -/
structure Updated (p : TreeNode E) (i : ℕ) (c q : TreeNode E) : Prop where
  key : ∀ j, q.key j = p.key j
  child : q.getChildPtr i = c
  other : ∀ j < 4, j ≠ i → q.getChildPtr j = p.getChildPtr j

theorem key_setChild (p : TreeNode E) (i : ℕ) (c : TreeNode E) (j : ℕ) :
    (p.setChild i c).key j = p.key j := by
  cases p with
  | null => rfl
  | node =>
      rcases i with - | - | - | - | i <;> rcases j with - | - | - | j <;> rfl

theorem copy_updated (hp : p ≠ null) (hi : i < 4) (c : TreeNode E) :
    Updated p i c (p.copy.setChild i c) := by
  cases p with
  | null => exact absurd rfl hp
  | node k0 k1 k2 c0 c1 c2 c3 v w =>
      refine ⟨fun j => ?_, ?_, fun j hj hne => ?_⟩
      · rw [key_setChild]
        match j with
        | 0 | 1 | 2 => rfl
        | _ + 3 => rfl
      · match i, hi with
        | 0, _ | 1, _ | 2, _ | 3, _ => rfl
      · match i, hi, j, hj with
        | 0, _, 0, _ | 1, _, 1, _ | 2, _, 2, _ | 3, _, 3, _ => exact absurd rfl hne
        | 0, _, 1, _ | 0, _, 2, _ | 0, _, 3, _ => rfl
        | 1, _, 0, _ | 1, _, 2, _ | 1, _, 3, _ => rfl
        | 2, _, 0, _ | 2, _, 1, _ | 2, _, 3, _ => rfl
        | 3, _, 0, _ | 3, _, 1, _ | 3, _, 2, _ => rfl

theorem setV2_updated (hp : p ≠ null) (hv : p.hasV2 = false) (c : TreeNode E) :
    Updated p i c (p.setV2 i c) := by
  cases p with
  | null => exact absurd rfl hp
  | node k0 k1 k2 c0 c1 c2 c3 v w =>
      have hnone : v = none := Option.not_isSome_iff_eq_none.mp (Bool.eq_false_iff.mp hv)
      refine ⟨fun j => ?_, if_pos rfl, fun j hj hne => ?_⟩
      · match j with
        | 0 | 1 | 2 => rfl
        | _ + 3 => rfl
      · subst hnone
        show (if some i = some j then c else _) = if none = some j then w else _
        rw [if_neg fun h => hne (Option.some.inj h).symm, if_neg nofun]
        match j, hj with
        | 0, _ | 1, _ | 2, _ | 3, _ => rfl

theorem setWorking_updated (hp : p ≠ null) (hi : i < 4) (c : TreeNode E) :
    Updated p i c (p.setWorking i c) := by
  cases p with
  | null => exact absurd rfl hp
  | node k0 k1 k2 c0 c1 c2 c3 v w =>
      by_cases hv : v = some i
      · simp only [setWorking, if_pos hv]
        refine ⟨fun j => ?_, if_pos hv, fun j hj hne => ?_⟩
        · match j with
          | 0 | 1 | 2 => rfl
          | _ + 3 => rfl
        · show (if v = some j then c else _) = if v = some j then w else _
          rw [hv, if_neg fun h => hne (Option.some.inj h).symm,
            if_neg fun h => hne (Option.some.inj h).symm]
          match j, hj with
          | 0, _ | 1, _ | 2, _ | 3, _ => rfl
      · simp only [setWorking, if_neg hv]
        refine ⟨fun j => key_setChild _ _ _ _, ?_, fun j hj hne => ?_⟩
        · match i, hi with
          | 0, _ | 1, _ | 2, _ | 3, _ => exact if_neg hv
        · match i, hi, j, hj with
          | 0, _, 0, _ | 1, _, 1, _ | 2, _, 2, _ | 3, _, 3, _ => exact absurd rfl hne
          | 0, _, 1, _ | 0, _, 2, _ | 0, _, 3, _ => rfl
          | 1, _, 0, _ | 1, _, 2, _ | 1, _, 3, _ => rfl
          | 2, _, 0, _ | 2, _, 1, _ | 2, _, 3, _ => rfl
          | 3, _, 0, _ | 3, _, 1, _ | 3, _, 2, _ => rfl

/-- A node whose child `i` may be replaced by a tree of height `h`. -/
structure Hole (h : ℕ) (p : TreeNode E) (i : ℕ) : Prop where
  lt : i < 4
  used : p.used i = true
  key : (p.key 1).isSome
  other : ∀ j < 4, j ≠ i → if p.used j then Balanced h (p.getChildPtr j)
    else p.getChildPtr j = null

theorem Balanced.hole (hp : Balanced (h + 1) p) (hi : i < 4) (hu : p.used i = true) : Hole h p i :=
  ⟨hi, hu, hp.1, fun j hj _ => hp.2 j hj⟩

theorem Balanced.child (hp : Balanced (h + 1) p) (hi : i < 4) (hu : p.used i = true) :
    Balanced h (p.getChildPtr i) := by
  have := hp.2 i hi
  rwa [if_pos hu] at this

theorem Hole.ne_null (hp : Hole h p i) : p ≠ null := by
  rintro rfl
  cases hp.key

theorem Updated.used {q : TreeNode E} (hq : Updated p i c q) (j : ℕ) : q.used j = p.used j := by
  match j with
  | 0 => exact congrArg Option.isSome (hq.key 0)
  | 1 | 2 => rfl
  | 3 => exact congrArg Option.isSome (hq.key 2)
  | _ + 4 => rfl

theorem Updated.leftOf {q : TreeNode E} (hq : Updated p i c q) (hj : j ≤ i) (hi : i < 4) :
    q.leftOf j = p.leftOf j := by
  induction j with
  | zero => rfl
  | succ j ih =>
      rw [TreeNode.leftOf, TreeNode.leftOf, ih (by omega), hq.key,
        hq.other j (by omega) (by omega)]

theorem Updated.rightOf {q : TreeNode E} (hq : Updated p i c q) (hi : i < 4) :
    q.rightOf i = p.rightOf i := by
  match i, hi with
  | 0, _ =>
      rw [TreeNode.rightOf, TreeNode.rightOf, hq.key, hq.key, hq.key, hq.other 1 (by omega)
        (by omega), hq.other 2 (by omega) (by omega), hq.other 3 (by omega) (by omega)]
  | 1, _ =>
      rw [TreeNode.rightOf, TreeNode.rightOf, hq.key, hq.key,
        hq.other 2 (by omega) (by omega), hq.other 3 (by omega) (by omega)]
  | 2, _ =>
      rw [TreeNode.rightOf, TreeNode.rightOf, hq.key, hq.other 3 (by omega) (by omega)]
  | 3, _ => rfl

theorem Updated.toList {q : TreeNode E} (hq : Updated p i c q) (hi : i < 4) :
    q.toList = p.leftOf i ++ c.toList ++ p.rightOf i := by
  rw [toList_split hi, hq.leftOf (Nat.le_refl _) hi, hq.rightOf hi, hq.child]

theorem Updated.balanced {q : TreeNode E} (hq : Updated p i c q) (hp : Hole h p i)
    (hc : Balanced h c) : Balanced (h + 1) q := by
  refine ⟨by rw [hq.key]; exact hp.key, fun j hj => ?_⟩
  rw [hq.used]
  by_cases hne : j = i
  · rw [hne, if_pos hp.used, hq.child]
    exact hc
  · rw [hq.other j hj hne]
    exact hp.other j hj hne

end Nodes

/-! ### Paths -/

/-- The nodes of a cursor with their cells, the current one first. -/
abbrev Path (E : Type) := List (TreeNode E × ℕ)

/-- The tree once the node below the path is `c`. -/
def plug : Path E → TreeNode E → TreeNode E
  | [], c => c
  | (p, i) :: path, c => plug path (p.setWorking i c)

/-- The entries before and after what is below the path. -/
def before : Path E → List E
  | [] => []
  | (p, i) :: path => before path ++ p.leftOf i

def after : Path E → List E
  | [] => []
  | (p, i) :: path => p.rightOf i ++ after path

/-- A path in a tree of height `H` to a node of height `h`. -/
def Holes : ℕ → Path E → ℕ → Prop
  | h, [], H => H = h
  | h, (p, i) :: path, H => Hole h p i ∧ Holes (h + 1) path H

/-- `treeUpdatePtr`: the pointer goes to the version 2 data of the node, if there is
none yet; else to a copy of it. -/
def treeUpdatePtr : Path E → TreeNode E → TreeNode E
  | [], iNew => iNew
  | (p, i) :: path, iNew =>
      if p.hasV2 then treeUpdatePtr path (p.copy.setChild i iNew)
      else plug path (p.setV2 i iNew)

section Paths

variable {path : Path E} {c : TreeNode E} {h H : ℕ}

theorem Holes.height (hp : Holes h path H) : H = h + path.length := by
  induction path generalizing h with
  | nil => exact hp
  | cons a path ih =>
      obtain ⟨p, i⟩ := a
      rw [ih hp.2, List.length_cons]
      omega

theorem plug_toList (hp : Holes h path H) :
    (plug path c).toList = before path ++ c.toList ++ after path := by
  induction path generalizing h c with
  | nil => simp [plug, before, after]
  | cons a path ih =>
      obtain ⟨p, i⟩ := a
      obtain ⟨hhole, hrest⟩ := hp
      have hu := setWorking_updated hhole.ne_null hhole.lt c
      rw [plug, ih hrest, hu.toList hhole.lt, before, after]
      simp only [List.append_assoc]

theorem plug_balanced (hp : Holes h path H) (hc : Balanced h c) : Balanced H (plug path c) := by
  induction path generalizing h c with
  | nil =>
      rw [show H = h from hp]
      exact hc
  | cons a path ih =>
      obtain ⟨p, i⟩ := a
      obtain ⟨hhole, hrest⟩ := hp
      exact ih hrest ((setWorking_updated hhole.ne_null hhole.lt c).balanced hhole hc)

/-- **A pointer is replaced**, in place or in copies. -/
theorem treeUpdatePtr_spec (hp : Holes h path H) (hc : Balanced h c) :
    (treeUpdatePtr path c).toList = before path ++ c.toList ++ after path ∧
      Balanced H (treeUpdatePtr path c) := by
  induction path generalizing h c with
  | nil =>
      refine ⟨by simp [treeUpdatePtr, before, after], ?_⟩
      rw [show H = h from hp]
      exact hc
  | cons a path ih =>
      obtain ⟨p, i⟩ := a
      obtain ⟨hhole, hrest⟩ := hp
      rw [treeUpdatePtr]
      split_ifs with hv
      · have hu := copy_updated hhole.ne_null hhole.lt c
        obtain ⟨hlist, hbal⟩ := ih hrest (hu.balanced hhole hc)
        refine ⟨?_, hbal⟩
        rw [hlist, hu.toList hhole.lt, before, after]
        simp only [List.append_assoc]
      · have hu := setV2_updated hhole.ne_null (Bool.eq_false_iff.mpr hv) (i := i) c
        refine ⟨?_, plug_balanced hrest (hu.balanced hhole hc)⟩
        rw [plug_toList hrest, hu.toList hhole.lt, before, after]
        simp only [List.append_assoc]

end Paths

/-! ### New nodes -/

section New

variable {k0 k1 k2 : Option E} {c0 c1 c2 c3 : TreeNode E} {h : ℕ}

theorem toList_new : (new k0 k1 k2 c0 c1 c2 c3).toList = c0.toList ++ k0.toList ++ c1.toList ++
    k1.toList ++ c2.toList ++ k2.toList ++ c3.toList := toList_eq _

theorem balanced_new (hk : k1.isSome)
    (h0 : if k0.isSome then Balanced h c0 else c0 = null) (h1 : Balanced h c1)
    (h2 : Balanced h c2) (h3 : if k2.isSome then Balanced h c3 else c3 = null) :
    Balanced (h + 1) (new k0 k1 k2 c0 c1 c2 c3) := by
  refine ⟨hk, fun i hi => ?_⟩
  match i, hi with
  | 0, _ => exact h0
  | 1, _ => exact h1
  | 2, _ => exact h2
  | 3, _ => exact h3

end New

end TreeNode

end Lsm

end MoVeBench
