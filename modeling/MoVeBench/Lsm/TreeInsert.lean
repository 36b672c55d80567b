/-
MoVeBench/Lsm/TreeInsert.lean

Inserting a key into the in-memory tree.

The path of a cursor leads to the node where the key belongs.  A full node is split
into two, and its middle key goes to the node above; the tree grows where the root is
split.
-/
import MoVeBench.Lsm.TreeNode

namespace MoVeBench

namespace Lsm

namespace TreeNode

variable {E : Type}

/-- The root of a tree, and its height. -/
structure TreeRoot (E : Type) where
  iRoot : TreeNode E
  nHeight : ℕ

/-- `iPtr ? iPtr : iOther`. -/
def orElse : TreeNode E → TreeNode E → TreeNode E
  | null, c => c
  | p, _ => p

/-- The keys in the slots `is`, each with the child left of it. -/
def cells (p : TreeNode E) (is : List ℕ) : List (Option E × TreeNode E) :=
  is.filterMap fun i => (p.key i).map fun k => (some k, p.getChildPtr i)

/-- A node with the given cells from the slot 0 on, and a last child. -/
def ofCells (cs : List (Option E × TreeNode E)) (c : TreeNode E) : TreeNode E :=
  let key i := (cs.map Prod.fst).getD i none
  let child i := (cs.map Prod.snd ++ [c]).getD i null
  new (key 0) (key 1) (key 2) (child 0) (child 1) (child 2) (child 3)

/-- The new version of a node that is not full, of `treeInsert`. -/
def insertCell (p : TreeNode E) (iSlot : ℕ) (iLeft : TreeNode E) (iKey : Option E)
    (iRight : TreeNode E) : TreeNode E :=
  let last := p.getChildPtr (if (p.key 2).isSome then 3 else 2)
  let left := p.cells ([0, 1, 2].filter (· < iSlot)) ++ [(iKey, iLeft)]
  match p.cells ([0, 1, 2].filter (iSlot ≤ ·)) with
  | [] => ofCells left (iRight.orElse last)
  | (k, c) :: cs => ofCells (left ++ (k, iRight.orElse c) :: cs) last

/-- `pLeft` of `treeInsert`, where the node is split: its left key, and the new key if
it belongs there. -/
def splitLeft (p : TreeNode E) (iSlot : ℕ) (iLeft : TreeNode E) (iKey : Option E)
    (iRight : TreeNode E) : TreeNode E :=
  let c := p.getChildPtr
  match iSlot with
  | 0 => new iKey (p.key 0) none iLeft (iRight.orElse (c 0)) (c 1) null
  | 1 => new none (p.key 0) iKey null (c 0) iLeft (iRight.orElse (c 1))
  | _ => new none (p.key 0) none null (c 0) (c 1) null

/-- `pRight`. -/
def splitRight (p : TreeNode E) (iSlot : ℕ) (iLeft : TreeNode E) (iKey : Option E)
    (iRight : TreeNode E) : TreeNode E :=
  let c := p.getChildPtr
  match iSlot with
  | 2 => new iKey (p.key 2) none iLeft (iRight.orElse (c 2)) (c 3) null
  | 3 => new none (p.key 2) iKey null (c 2) iLeft (iRight.orElse (c 3))
  | _ => new none (p.key 2) none null (c 2) (c 3) null

/-- `treeInsert`: the key goes to the slot that is the cell of the path, between the
two children. -/
def treeInsert (nHeight : ℕ) : Path E → TreeNode E → Option E → TreeNode E → TreeRoot E
  | [], _, _, _ => ⟨null, nHeight⟩
  | (p, iSlot) :: path, iLeft, iKey, iRight =>
      if (p.key 0).isSome && (p.key 2).isSome then
        let pLeft := p.splitLeft iSlot iLeft iKey iRight
        let pRight := p.splitRight iSlot iLeft iKey iRight
        match path with
        | [] => ⟨new none (p.key 1) none null pLeft pRight null, nHeight + 1⟩
        | a :: path => treeInsert nHeight (a :: path) pLeft (p.key 1) pRight
      else ⟨treeUpdatePtr path (p.insertCell iSlot iLeft iKey iRight), nHeight⟩

/-- The new version of a leaf that is not full, of `treeInsertLeaf`. -/
def insertLeafKey (p : TreeNode E) (iSlot : ℕ) (iKey : Option E) : TreeNode E :=
  let keys := (List.range 4).flatMap fun i =>
    (if i = iSlot then [iKey] else []) ++ (if (p.key i).isSome then [p.key i] else [])
  new (keys.getD 0 none) (keys.getD 1 none) (keys.getD 2 none) null null null null

/-- `treeInsertLeaf`. -/
def treeInsertLeaf (nHeight : ℕ) (p : TreeNode E) (iSlot : ℕ) (path : Path E) (iKey : Option E) :
    TreeRoot E :=
  if (p.key 0).isSome && (p.key 2).isSome then
    let pNew := match iSlot with
      | 0 => new iKey (p.key 0) none null null null null
      | 1 => new none (p.key 0) iKey null null null null
      | _ => new none (p.key 0) none null null null null
    let pRight := match iSlot with
      | 2 => new iKey (p.key 2) none null null null null
      | 3 => new none (p.key 2) iKey null null null null
      | _ => new none (p.key 2) none null null null null
    treeInsert nHeight path pNew (p.key 1) pRight
  else ⟨treeUpdatePtr path (p.insertLeafKey iSlot iKey), nHeight⟩

section Insert

variable {p iLeft iRight : TreeNode E} {iSlot h H : ℕ} {iKey : Option E} {path : Path E}

theorem orElse_eq {c : TreeNode E} (hnull : iRight = null → c = null) :
    iRight.orElse c = iRight := by
  cases iRight with
  | null => exact hnull rfl
  | node => rfl

/-- What the children of a node with a hole are. -/
theorem Hole.child {i j : ℕ} (hp : Hole h p i) (hj : j < 4) (hne : j ≠ i)
    (hu : p.used j = true) : Balanced h (p.getChildPtr j) := by
  have := hp.other j hj hne
  rwa [if_pos hu] at this

theorem Hole.unused {i j : ℕ} (hp : Hole h p i) (hj : j < 4) (hne : j ≠ i)
    (hu : p.used j = false) : p.getChildPtr j = null := by
  have := hp.other j hj hne
  rwa [hu] at this

/-- A key is inserted into a node with one key. -/
theorem insertCell_one (hp : Hole h p iSlot) (hk0 : p.key 0 = none) (hk2 : p.key 2 = none)
    (hk : iKey.isSome) (hl : Balanced h iLeft) (hr : Balanced h iRight)
    (hnull : iRight = null → p.getChildPtr iSlot = null) :
    (p.insertCell iSlot iLeft iKey iRight).toList = p.leftOf iSlot ++ iLeft.toList ++
        iKey.toList ++ iRight.toList ++ p.rightOf iSlot ∧
      Balanced (h + 1) (p.insertCell iSlot iLeft iKey iRight) := by
  obtain ⟨k1, hk1⟩ := Option.isSome_iff_exists.mp hp.key
  have hright := orElse_eq hnull
  have hlt := hp.lt
  have hused := hp.used
  have hchild := fun {j} => hp.child (j := j)
  have hunused := fun {j} => hp.unused (j := j)
  match iSlot, hlt with
  | 0, _ => simp [used, hk0] at hused
  | 1, _ =>
      have h2 := hchild (j := 2) (by omega) (by omega) rfl
      have h0 := hunused (j := 0) (by omega) (by omega) (by simp [used, hk0])
      have h3 := hunused (j := 3) (by omega) (by omega) (by simp [used, hk2])
      have hcell : p.insertCell 1 iLeft iKey iRight =
          new iKey (some k1) none iLeft iRight (p.getChildPtr 2) null := by
        simp [insertCell, cells, ofCells, hk0, hk1, hk2, hright]
      rw [hcell]
      refine ⟨?_, balanced_new rfl (by rw [hk]; exact hl) hr h2 rfl⟩
      simp [toList_new, leftOf, rightOf, hk0, hk1, hk2, h0, h3, toList]
  | 2, _ =>
      have h1 := hchild (j := 1) (by omega) (by omega) rfl
      have h0 := hunused (j := 0) (by omega) (by omega) (by simp [used, hk0])
      have h3 := hunused (j := 3) (by omega) (by omega) (by simp [used, hk2])
      have hcell : p.insertCell 2 iLeft iKey iRight =
          new (some k1) iKey none (p.getChildPtr 1) iLeft iRight null := by
        simp [insertCell, cells, ofCells, hk0, hk1, hk2, hright]
      rw [hcell]
      refine ⟨?_, balanced_new hk h1 hl hr rfl⟩
      simp [toList_new, leftOf, rightOf, hk0, hk1, hk2, h0, h3, toList]
  | 3, _ => simp [used, hk2] at hused

/-- A key is inserted into a node without a left key. -/
theorem insertCell_right (hp : Hole h p iSlot) {k2 : E} (hk0 : p.key 0 = none) (hk2 : p.key 2 = some k2)
    (hk : iKey.isSome) (hl : Balanced h iLeft) (hr : Balanced h iRight)
    (hnull : iRight = null → p.getChildPtr iSlot = null) :
    (p.insertCell iSlot iLeft iKey iRight).toList = p.leftOf iSlot ++ iLeft.toList ++
        iKey.toList ++ iRight.toList ++ p.rightOf iSlot ∧
      Balanced (h + 1) (p.insertCell iSlot iLeft iKey iRight) := by
  obtain ⟨k1, hk1⟩ := Option.isSome_iff_exists.mp hp.key
  have hright := orElse_eq hnull
  have hlt := hp.lt
  have hused := hp.used
  have hchild := fun {j} => hp.child (j := j)
  have hunused := fun {j} => hp.unused (j := j)
  have h0 : iSlot ≠ 0 → p.getChildPtr 0 = null := fun hne =>
    hunused (j := 0) (by omega) hne.symm (by simp [used, hk0])
  match iSlot, hlt with
  | 0, _ => simp [used, hk0] at hused
  | 1, _ =>
      have h2 := hchild (j := 2) (by omega) (by omega) rfl
      have h3 := hchild (j := 3) (by omega) (by omega) (by simp [used, hk2])
      have hcell : p.insertCell 1 iLeft iKey iRight =
          new iKey (some k1) (some k2) iLeft iRight (p.getChildPtr 2) (p.getChildPtr 3) := by
        simp [insertCell, cells, ofCells, hk0, hk1, hk2, hright]
      rw [hcell]
      refine ⟨?_, balanced_new rfl (by rw [hk]; exact hl) hr h2 h3⟩
      simp [toList_new, leftOf, rightOf, hk0, hk1, hk2, h0, toList]
  | 2, _ =>
      have h1 := hchild (j := 1) (by omega) (by omega) rfl
      have h3 := hchild (j := 3) (by omega) (by omega) (by simp [used, hk2])
      have hcell : p.insertCell 2 iLeft iKey iRight =
          new (some k1) iKey (some k2) (p.getChildPtr 1) iLeft iRight (p.getChildPtr 3) := by
        simp [insertCell, cells, ofCells, hk0, hk1, hk2, hright]
      rw [hcell]
      refine ⟨?_, balanced_new hk h1 hl hr h3⟩
      simp [toList_new, leftOf, rightOf, hk0, hk1, hk2, h0, toList]
  | 3, _ =>
      have h1 := hchild (j := 1) (by omega) (by omega) rfl
      have h2 := hchild (j := 2) (by omega) (by omega) rfl
      have hcell : p.insertCell 3 iLeft iKey iRight =
          new (some k1) (some k2) iKey (p.getChildPtr 1) (p.getChildPtr 2) iLeft iRight := by
        simp [insertCell, cells, ofCells, hk0, hk1, hk2, hright]
      rw [hcell]
      refine ⟨?_, balanced_new rfl h1 h2 hl (by rw [hk]; exact hr)⟩
      simp [toList_new, leftOf, rightOf, hk0, hk1, hk2, h0, toList]

/-- A key is inserted into a node without a right key. -/
theorem insertCell_left (hp : Hole h p iSlot) {k0 : E} (hk0 : p.key 0 = some k0) (hk2 : p.key 2 = none)
    (hk : iKey.isSome) (hl : Balanced h iLeft) (hr : Balanced h iRight)
    (hnull : iRight = null → p.getChildPtr iSlot = null) :
    (p.insertCell iSlot iLeft iKey iRight).toList = p.leftOf iSlot ++ iLeft.toList ++
        iKey.toList ++ iRight.toList ++ p.rightOf iSlot ∧
      Balanced (h + 1) (p.insertCell iSlot iLeft iKey iRight) := by
  obtain ⟨k1, hk1⟩ := Option.isSome_iff_exists.mp hp.key
  have hright := orElse_eq hnull
  have hlt := hp.lt
  have hused := hp.used
  have hchild := fun {j} => hp.child (j := j)
  have hunused := fun {j} => hp.unused (j := j)
  have h3 : iSlot ≠ 3 → p.getChildPtr 3 = null := fun hne =>
    hunused (j := 3) (by omega) hne.symm (by simp [used, hk2])
  match iSlot, hlt with
  | 0, _ =>
      have h1 := hchild (j := 1) (by omega) (by omega) rfl
      have h2 := hchild (j := 2) (by omega) (by omega) rfl
      have hcell : p.insertCell 0 iLeft iKey iRight =
          new iKey (some k0) (some k1) iLeft iRight (p.getChildPtr 1) (p.getChildPtr 2) := by
        simp [insertCell, cells, ofCells, hk0, hk1, hk2, hright]
      rw [hcell]
      refine ⟨?_, balanced_new rfl (by rw [hk]; exact hl) hr h1 h2⟩
      simp [toList_new, leftOf, rightOf, hk0, hk1, hk2, h3, toList]
  | 1, _ =>
      have h0 := hchild (j := 0) (by omega) (by omega) (by simp [used, hk0])
      have h2 := hchild (j := 2) (by omega) (by omega) rfl
      have hcell : p.insertCell 1 iLeft iKey iRight =
          new (some k0) iKey (some k1) (p.getChildPtr 0) iLeft iRight (p.getChildPtr 2) := by
        simp [insertCell, cells, ofCells, hk0, hk1, hk2, hright]
      rw [hcell]
      refine ⟨?_, balanced_new hk h0 hl hr h2⟩
      simp [toList_new, leftOf, rightOf, hk0, hk1, hk2, h3, toList]
  | 2, _ =>
      have h0 := hchild (j := 0) (by omega) (by omega) (by simp [used, hk0])
      have h1 := hchild (j := 1) (by omega) (by omega) rfl
      have hcell : p.insertCell 2 iLeft iKey iRight =
          new (some k0) (some k1) iKey (p.getChildPtr 0) (p.getChildPtr 1) iLeft iRight := by
        simp [insertCell, cells, ofCells, hk0, hk1, hk2, hright]
      rw [hcell]
      refine ⟨?_, balanced_new rfl h0 h1 hl (by rw [hk]; exact hr)⟩
      simp [toList_new, leftOf, rightOf, hk0, hk1, hk2, h3, toList]
  | 3, _ => simp [used, hk2] at hused

/-- A key is inserted into a node that is not full. -/
theorem insertCell_spec (hp : Hole h p iSlot)
    (hfull : ((p.key 0).isSome && (p.key 2).isSome) = false) (hk : iKey.isSome)
    (hl : Balanced h iLeft) (hr : Balanced h iRight)
    (hnull : iRight = null → p.getChildPtr iSlot = null) :
    (p.insertCell iSlot iLeft iKey iRight).toList = p.leftOf iSlot ++ iLeft.toList ++
        iKey.toList ++ iRight.toList ++ p.rightOf iSlot ∧
      Balanced (h + 1) (p.insertCell iSlot iLeft iKey iRight) := by
  rcases hk0 : p.key 0 with - | k0 <;> rcases hk2 : p.key 2 with - | k2 <;>
    rw [hk0, hk2] at hfull
  · exact insertCell_one hp hk0 hk2 hk hl hr hnull
  · exact insertCell_right hp hk0 hk2 hk hl hr hnull
  · exact insertCell_left hp hk0 hk2 hk hl hr hnull
  · cases hfull

/-- A full node is split. -/
theorem split_spec (hp : Hole h p iSlot)
    (hfull : ((p.key 0).isSome && (p.key 2).isSome) = true) (hk : iKey.isSome)
    (hl : Balanced h iLeft) (hr : Balanced h iRight)
    (hnull : iRight = null → p.getChildPtr iSlot = null) :
    (p.splitLeft iSlot iLeft iKey iRight).toList ++ (p.key 1).toList ++
        (p.splitRight iSlot iLeft iKey iRight).toList = p.leftOf iSlot ++ iLeft.toList ++
        iKey.toList ++ iRight.toList ++ p.rightOf iSlot ∧
      Balanced (h + 1) (p.splitLeft iSlot iLeft iKey iRight) ∧
      Balanced (h + 1) (p.splitRight iSlot iLeft iKey iRight) := by
  obtain ⟨h0, h2⟩ := Bool.and_eq_true_iff.mp hfull
  have hright := orElse_eq hnull
  have hchild : ∀ j < 4, j ≠ iSlot → Balanced h (p.getChildPtr j) := by
    intro j hj hne
    refine hp.child hj hne ?_
    match j, hj with
    | 0, _ => exact h0
    | 1, _ | 2, _ => rfl
    | 3, _ => exact h2
  match iSlot, hp.lt with
  | 0, _ =>
      have c1 := hchild 1 (by omega) (by omega)
      have c2 := hchild 2 (by omega) (by omega)
      have c3 := hchild 3 (by omega) (by omega)
      simp only [splitLeft, splitRight, hright]
      refine ⟨?_, balanced_new h0 (by rw [hk]; exact hl) hr c1 rfl, balanced_new h2 rfl c2 c3 rfl⟩
      simp [toList_new, leftOf, rightOf, toList]
  | 1, _ =>
      have c0 := hchild 0 (by omega) (by omega)
      have c2 := hchild 2 (by omega) (by omega)
      have c3 := hchild 3 (by omega) (by omega)
      simp only [splitLeft, splitRight, hright]
      refine ⟨?_, balanced_new h0 rfl c0 hl (by rw [hk]; exact hr), balanced_new h2 rfl c2 c3 rfl⟩
      simp [toList_new, leftOf, rightOf, toList]
  | 2, _ =>
      have c0 := hchild 0 (by omega) (by omega)
      have c1 := hchild 1 (by omega) (by omega)
      have c3 := hchild 3 (by omega) (by omega)
      simp only [splitLeft, splitRight, hright]
      refine ⟨?_, balanced_new h0 rfl c0 c1 rfl, balanced_new h2 (by rw [hk]; exact hl) hr c3 rfl⟩
      simp [toList_new, leftOf, rightOf, toList]
  | 3, _ =>
      have c0 := hchild 0 (by omega) (by omega)
      have c1 := hchild 1 (by omega) (by omega)
      have c2 := hchild 2 (by omega) (by omega)
      simp only [splitLeft, splitRight, hright]
      refine ⟨?_, balanced_new h0 rfl c0 c1 rfl, balanced_new h2 rfl c2 hl (by rw [hk]; exact hr)⟩
      simp [toList_new, leftOf, rightOf, toList]

/-- **A key is inserted** where the path leads to. -/
theorem treeInsert_spec (hp : Holes h path H) (hne : path ≠ []) (hk : iKey.isSome)
    (hl : Balanced h iLeft) (hr : Balanced h iRight)
    (hnull : iRight = null → ∀ a ∈ path.head?, a.1.getChildPtr a.2 = null) :
    (treeInsert H path iLeft iKey iRight).iRoot.toList =
        before path ++ iLeft.toList ++ iKey.toList ++ iRight.toList ++ after path ∧
      Balanced (treeInsert H path iLeft iKey iRight).nHeight
        (treeInsert H path iLeft iKey iRight).iRoot := by
  induction path generalizing h iLeft iKey iRight with
  | nil => exact absurd rfl hne
  | cons a path ih =>
      obtain ⟨p, iSlot⟩ := a
      obtain ⟨hhole, hrest⟩ := hp
      have hnull' : iRight = null → p.getChildPtr iSlot = null := fun h => hnull h _ rfl
      cases hfull : (p.key 0).isSome && (p.key 2).isSome with
      | false =>
          obtain ⟨hlist, hbal⟩ := insertCell_spec hhole hfull hk hl hr hnull'
          obtain ⟨hlist', hbal'⟩ := treeUpdatePtr_spec hrest hbal
          have heq : treeInsert H ((p, iSlot) :: path) iLeft iKey iRight =
              ⟨treeUpdatePtr path (p.insertCell iSlot iLeft iKey iRight), H⟩ := by
            rw [treeInsert, hfull]
            rfl
          rw [heq]
          refine ⟨?_, hbal'⟩
          rw [hlist', hlist, before, after]
          simp only [List.append_assoc]
      | true =>
          obtain ⟨hlist, hbl, hbr⟩ := split_spec hhole hfull hk hl hr hnull'
          cases path with
          | nil =>
              have heq : treeInsert H [(p, iSlot)] iLeft iKey iRight =
                  ⟨new none (p.key 1) none null (p.splitLeft iSlot iLeft iKey iRight)
                    (p.splitRight iSlot iLeft iKey iRight) null, H + 1⟩ := by
                rw [treeInsert, hfull]
                rfl
              -- the root is split: the tree gets a new root
              have hH : H = h + 1 := hrest
              rw [heq]
              refine ⟨?_, ?_⟩
              · rw [toList_new]
                simp only [toList, Option.toList_none, List.nil_append, List.append_nil, before,
                  after, hlist]
              · show Balanced (H + 1) _
                rw [hH]
                exact balanced_new hhole.key rfl hbl hbr rfl
          | cons b path =>
              have heq : treeInsert H ((p, iSlot) :: b :: path) iLeft iKey iRight =
                  treeInsert H (b :: path) (p.splitLeft iSlot iLeft iKey iRight) (p.key 1)
                    (p.splitRight iSlot iLeft iKey iRight) := by
                rw [treeInsert, hfull]
                rfl
              obtain ⟨hlist', hbal'⟩ := ih hrest (List.cons_ne_nil _ _) hhole.key hbl hbr
                fun h => absurd h hbr.ne_null
              rw [heq]
              refine ⟨?_, hbal'⟩
              have hb : before ((p, iSlot) :: b :: path) = before (b :: path) ++ p.leftOf iSlot := rfl
              have ha : after ((p, iSlot) :: b :: path) = p.rightOf iSlot ++ after (b :: path) := rfl
              -- what the two halves hold stands between the two parts of the path
              calc _ = before (b :: path) ++ ((p.splitLeft iSlot iLeft iKey iRight).toList ++
                      (p.key 1).toList ++ (p.splitRight iSlot iLeft iKey iRight).toList) ++
                      after (b :: path) := by
                    rw [hlist']
                    simp only [List.append_assoc]
                _ = _ := by
                    rw [hlist, hb, ha]
                    simp only [List.append_assoc]

/-- A leaf is a node with zero pointers. -/
theorem Balanced.leaf_child (hp : Balanced 1 p) (i : ℕ) (hi : i < 4) : p.getChildPtr i = null := by
  have := hp.2 i hi
  split_ifs at this with hu
  · exact this
  · exact this

/-- `treeInsertLeaf` writes what `treeInsert` would write to a leaf. -/
theorem treeInsertLeaf_eq (hp : Balanced 1 p) (hu : p.used iSlot = true) (hi : iSlot < 4)
    (hne : path ≠ []) : treeInsertLeaf H p iSlot path iKey =
      treeInsert H ((p, iSlot) :: path) null iKey null := by
  have hc := fun i hi => hp.leaf_child i hi
  have hc0 := hc 0 (by omega)
  have hc1 := hc 1 (by omega)
  have hc2 := hc 2 (by omega)
  have hc3 := hc 3 (by omega)
  obtain ⟨k1, hk1⟩ := Option.isSome_iff_exists.mp hp.1
  obtain ⟨b, path, rfl⟩ := List.exists_cons_of_ne_nil hne
  have hk3 : p.key 3 = none := by
    cases p with
    | null => rfl
    | node => rfl
  cases hfull : (p.key 0).isSome && (p.key 2).isSome with
  -- a full leaf is split like a node whose children are null
  | true =>
      have heq : treeInsert H ((p, iSlot) :: b :: path) null iKey null =
          treeInsert H (b :: path) (p.splitLeft iSlot null iKey null) (p.key 1)
            (p.splitRight iSlot null iKey null) := by
        rw [treeInsert, hfull]
        rfl
      unfold treeInsertLeaf
      rw [if_pos hfull, heq]
      match iSlot, hi with
      | 0, _ | 1, _ | 2, _ | 3, _ => simp only [splitLeft, splitRight, orElse, hc0, hc1, hc2, hc3]
  | false =>
      have heq : treeInsert H ((p, iSlot) :: b :: path) null iKey null =
          ⟨treeUpdatePtr (b :: path) (p.insertCell iSlot null iKey null), H⟩ := by
        rw [treeInsert, hfull]
        rfl
      -- a leaf with room, by its keys
      have hcell : p.insertLeafKey iSlot iKey = p.insertCell iSlot null iKey null := by
        rcases hk0 : p.key 0 with - | k0 <;> rcases hk2 : p.key 2 with - | k2 <;>
          rw [hk0, hk2] at hfull
        · match iSlot, hi with
          | 0, _ | 3, _ => simp [used, hk0, hk2] at hu
          | 1, _ | 2, _ => simp [insertLeafKey, insertCell, cells, ofCells, orElse, List.range,
              List.range.loop, hk0, hk1, hk2, hk3, hc1, hc2]
        · match iSlot, hi with
          | 0, _ => simp [used, hk0] at hu
          | 1, _ | 2, _ | 3, _ => simp [insertLeafKey, insertCell, cells, ofCells, orElse,
              List.range, List.range.loop, hk0, hk1, hk2, hk3, hc1, hc2, hc3]
        · match iSlot, hi with
          | 0, _ | 1, _ | 2, _ => simp [insertLeafKey, insertCell, cells, ofCells, orElse,
              List.range, List.range.loop, hk0, hk1, hk2, hk3, hc0, hc1, hc2]
          | 3, _ => simp [used, hk2] at hu
        · cases hfull
      unfold treeInsertLeaf
      rw [if_neg (by rw [hfull]; exact Bool.false_ne_true), heq, hcell]

end Insert

end TreeNode

end Lsm

end MoVeBench
