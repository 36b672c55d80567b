/-
MoVeBench/Lsm/TreeDelete.lean

Removing a key from the in-memory tree.

A node that would be left without a key takes one from its peer, if the peer is full;
else the two become one node, and a key is removed from the node above.
-/
import MoVeBench.Lsm.TreeInsert

namespace MoVeBench

namespace Lsm

namespace TreeNode

variable {E : Type}

/-- Whether a pointer is zero. -/
def isNull : TreeNode E → Bool
  | null => true
  | node .. => false

/-- The copy of a node with two keys or more, without the key `iSlot`: the cells from
the slot 1 on.  The pointer `iNewptr` replaces the two next to the key. -/
def removeCell (p : TreeNode E) (iSlot : ℕ) (iNewptr : TreeNode E) (bLeaf : Bool) : TreeNode E :=
  let cs := [0, 1, 2, 3].filterMap fun i =>
    if i = iSlot then some (p.key (i + 1), iNewptr)
    else if i = iSlot + 1 then none
    else if bLeaf then (p.key i).map fun k => (some k, null)
    else if (p.getChildPtr i).isNull then none
    else some (p.key i, p.getChildPtr i)
  let key i := (cs.map Prod.fst).getD i none
  let child i := (cs.map Prod.snd).getD i null
  new none (key 0) (key 1) null (child 0) (child 1) (child 2)

/-- `iDir==-1`: the peer of the child `iPSlot` is the one to its left. -/
def peerLeft (pParent : TreeNode E) (iPSlot : ℕ) : Bool :=
  0 < iPSlot && !(pParent.getChildPtr (iPSlot - 1)).isNull

/-- `pPeer`. -/
def peer (pParent : TreeNode E) (iPSlot : ℕ) : TreeNode E :=
  pParent.getChildPtr (if pParent.peerLeft iPSlot then iPSlot - 1 else iPSlot + 1)

/-- The key of the parent between the node and its peer. -/
def peerSlot (pParent : TreeNode E) (iPSlot : ℕ) : ℕ :=
  if pParent.peerLeft iPSlot then iPSlot - 1 else iPSlot

/-- `pNew1`, where the peer is full. -/
def shareFirst (pParent pPeer : TreeNode E) (j : ℕ) (bLeft : Bool) (iNewptr : TreeNode E) :
    TreeNode E :=
  if bLeft then new none (pPeer.key 0) none null (pPeer.getChildPtr 0) (pPeer.getChildPtr 1) null
  else new none (pParent.key j) none null iNewptr (pPeer.getChildPtr 0) null

/-- `pNew2`. -/
def shareSecond (pParent pPeer : TreeNode E) (j : ℕ) (bLeft : Bool) (iNewptr : TreeNode E) :
    TreeNode E :=
  if bLeft then new (pPeer.key 2) (pParent.key j) none (pPeer.getChildPtr 2) (pPeer.getChildPtr 3)
    iNewptr null
  else new (pPeer.key 1) (pPeer.key 2) none (pPeer.getChildPtr 1) (pPeer.getChildPtr 2)
    (pPeer.getChildPtr 3) null

/-- `pNewP`: a copy of the parent with the two nodes around the key `j`. -/
def shareParent (pParent : TreeNode E) (j : ℕ) (iNew1 : TreeNode E) (iKey : Option E)
    (iNew2 : TreeNode E) : TreeNode E :=
  ((pParent.copy.setChild j iNew1).setKey j iKey).setChild (j + 1) iNew2

/-- `pNew1`, where the peer and the key of the parent next to it fill one node. -/
def mergePeer (pParent pPeer : TreeNode E) (j : ℕ) (bLeft : Bool) (iNewptr : TreeNode E) :
    TreeNode E :=
  let pk := [0, 1, 2].filterMap fun i => (pPeer.key i).map some
  let pc := [0, 1, 2, 3].filterMap fun i =>
    if (pPeer.getChildPtr i).isNull then none else some (pPeer.getChildPtr i)
  let keys := if bLeft then pk ++ [pParent.key j] else pParent.key j :: pk
  let children := if bLeft then pc ++ [iNewptr] else iNewptr :: pc
  new (keys.getD 0 none) (keys.getD 1 none) (keys.getD 2 none) (children.getD 0 null)
    (children.getD 1 null) (children.getD 2 null) (children.getD 3 null)

/-- `treeDeleteEntry`: the key `iSlot` of `pNode` is removed, and the two pointers next
to it replaced by `iNewptr`. -/
def treeDeleteEntry (nHeight : ℕ) (pNode : TreeNode E) (iSlot : ℕ) (iNewptr : TreeNode E) :
    Path E → TreeRoot E
  | [] =>
      if (pNode.key 0).isSome || (pNode.key 2).isSome then
        ⟨pNode.removeCell iSlot iNewptr (nHeight = 1), nHeight⟩
      -- the tree loses a level
      else ⟨iNewptr, nHeight - 1⟩
  | (pParent, iPSlot) :: path =>
      if (pNode.key 0).isSome || (pNode.key 2).isSome then
        let bLeaf := path.length + 2 = nHeight && 1 < nHeight
        ⟨treeUpdatePtr ((pParent, iPSlot) :: path)
          (pNode.removeCell iSlot iNewptr (bLeaf || nHeight = 1)), nHeight⟩
      else
        let bLeft := pParent.peerLeft iPSlot
        let pPeer := pParent.peer iPSlot
        let j := pParent.peerSlot iPSlot
        if (pPeer.key 0).isSome && (pPeer.key 2).isSome then
          -- the peer has three keys and gives one away
          ⟨treeUpdatePtr path (pParent.shareParent j (pParent.shareFirst pPeer j bLeft iNewptr)
            (if bLeft then pPeer.key 1 else pPeer.key 0)
            (pParent.shareSecond pPeer j bLeft iNewptr)), nHeight⟩
        else treeDeleteEntry nHeight pParent j (pParent.mergePeer pPeer j bLeft iNewptr) path

/-- A node of height `h + 1` whose key `i` may be removed. -/
structure Gap (h : ℕ) (p : TreeNode E) (i : ℕ) : Prop where
  lt : i < 3
  some : (p.key i).isSome
  key : (p.key 1).isSome
  other : ∀ j < 4, j ≠ i → j ≠ i + 1 → if p.used j then Balanced h (p.getChildPtr j)
    else p.getChildPtr j = null

section Delete

variable {p q iNew : TreeNode E} {i j h H : ℕ} {path : Path E}

theorem Balanced.gap (hp : Balanced (h + 1) p) (hi : i < 3) (hk : (p.key i).isSome) : Gap h p i :=
  ⟨hi, hk, hp.1, fun j hj _ _ => hp.2 j hj⟩

theorem isNull_iff : p.isNull = true ↔ p = null := by
  cases p with
  | null => exact ⟨fun _ => rfl, fun _ => rfl⟩
  | node => exact ⟨nofun, nofun⟩

theorem Balanced.isNull (hp : Balanced (h + 1) p) : p.isNull = false :=
  Bool.eq_false_iff.mpr fun hnull => hp.ne_null (isNull_iff.mp hnull)

theorem key_three (p : TreeNode E) : p.key 3 = none := by
  cases p with
  | null => rfl
  | node => rfl

theorem Gap.child (hp : Gap h p i) (hj : j < 4) (hne : j ≠ i) (hne' : j ≠ i + 1)
    (hu : p.used j = true) : Balanced h (p.getChildPtr j) := by
  have := hp.other j hj hne hne'
  rwa [if_pos hu] at this

theorem Gap.unused (hp : Gap h p i) (hj : j < 4) (hne : j ≠ i) (hne' : j ≠ i + 1)
    (hu : p.used j = false) : p.getChildPtr j = null := by
  have := hp.other j hj hne hne'
  rwa [hu] at this

/-- No child of a leaf. -/
theorem Gap.leaf_null (hp : Gap 0 p i) : ∀ j < 4, j ≠ i → j ≠ i + 1 → p.getChildPtr j = null := by
  intro j hj hne hne'
  have := hp.other j hj hne hne'
  split_ifs at this with hu
  · exact this
  · exact this

theorem balanced_leaf {a b : Option E} (ha : a.isSome) :
    Balanced 1 (new none a b null null null null) :=
  balanced_new ha rfl rfl rfl (by split_ifs <;> rfl)

/-- A key is removed from a leaf without a left key. -/
theorem removeCell_leafRight (hp : Gap 0 p i) {k2 : E} (hk0 : p.key 0 = none)
    (hk2 : p.key 2 = some k2) :
    (p.removeCell i null true).toList = p.leftOf i ++ p.rightOf (i + 1) ∧
      Balanced 1 (p.removeCell i null true) := by
  obtain ⟨k1, hk1⟩ := Option.isSome_iff_exists.mp hp.key
  have hk3 := key_three p
  have hsome := hp.some
  have hnull := hp.leaf_null
  match i, hp.lt with
  | 0, _ => simp [hk0] at hsome
  | 1, _ =>
      have hcell : p.removeCell 1 null true = new none (some k2) none null null null null := by
        simp [removeCell, hk0, hk2, hk3]
      rw [hcell]
      refine ⟨?_, balanced_leaf rfl⟩
      simp [toList_new, leftOf, rightOf, hk0, hk2, hnull, toList]
  | 2, _ =>
      have hcell : p.removeCell 2 null true = new none (some k1) none null null null null := by
        simp [removeCell, hk0, hk1, hk3]
      rw [hcell]
      refine ⟨?_, balanced_leaf rfl⟩
      simp [toList_new, leftOf, rightOf, hk0, hk1, hnull, toList]

/-- A key is removed from a leaf without a right key. -/
theorem removeCell_leafLeft (hp : Gap 0 p i) {k0 : E} (hk0 : p.key 0 = some k0)
    (hk2 : p.key 2 = none) :
    (p.removeCell i null true).toList = p.leftOf i ++ p.rightOf (i + 1) ∧
      Balanced 1 (p.removeCell i null true) := by
  obtain ⟨k1, hk1⟩ := Option.isSome_iff_exists.mp hp.key
  have hk3 := key_three p
  have hsome := hp.some
  have hnull := hp.leaf_null
  match i, hp.lt with
  | 0, _ =>
      have hcell : p.removeCell 0 null true = new none (some k1) none null null null null := by
        simp [removeCell, hk1, hk2, hk3]
      rw [hcell]
      refine ⟨?_, balanced_leaf rfl⟩
      simp [toList_new, leftOf, rightOf, hk1, hk2, hnull, toList]
  | 1, _ =>
      have hcell : p.removeCell 1 null true = new none (some k0) none null null null null := by
        simp [removeCell, hk0, hk2, hk3]
      rw [hcell]
      refine ⟨?_, balanced_leaf rfl⟩
      simp [toList_new, leftOf, rightOf, hk0, hk2, hnull, toList]
  | 2, _ => simp [hk2] at hsome

/-- A key is removed from a full leaf. -/
theorem removeCell_leafFull (hp : Gap 0 p i) {k0 k2 : E} (hk0 : p.key 0 = some k0)
    (hk2 : p.key 2 = some k2) :
    (p.removeCell i null true).toList = p.leftOf i ++ p.rightOf (i + 1) ∧
      Balanced 1 (p.removeCell i null true) := by
  obtain ⟨k1, hk1⟩ := Option.isSome_iff_exists.mp hp.key
  have hk3 := key_three p
  have hnull := hp.leaf_null
  match i, hp.lt with
  | 0, _ =>
      have hcell : p.removeCell 0 null true =
          new none (some k1) (some k2) null null null null := by
        simp [removeCell, hk1, hk2, hk3]
      rw [hcell]
      refine ⟨?_, balanced_leaf rfl⟩
      simp [toList_new, leftOf, rightOf, hk1, hk2, hnull, toList]
  | 1, _ =>
      have hcell : p.removeCell 1 null true =
          new none (some k0) (some k2) null null null null := by
        simp [removeCell, hk0, hk2, hk3]
      rw [hcell]
      refine ⟨?_, balanced_leaf rfl⟩
      simp [toList_new, leftOf, rightOf, hk0, hk2, hnull, toList]
  | 2, _ =>
      have hcell : p.removeCell 2 null true =
          new none (some k0) (some k1) null null null null := by
        simp [removeCell, hk0, hk1, hk3]
      rw [hcell]
      refine ⟨?_, balanced_leaf rfl⟩
      simp [toList_new, leftOf, rightOf, hk0, hk1, hnull, toList]

/-- A key is removed from a leaf with two keys or more. -/
theorem removeCell_leaf (hp : Gap 0 p i)
    (hkeys : ((p.key 0).isSome || (p.key 2).isSome) = true) :
    (p.removeCell i null true).toList = p.leftOf i ++ p.rightOf (i + 1) ∧
      Balanced 1 (p.removeCell i null true) := by
  rcases hk0 : p.key 0 with - | k0 <;> rcases hk2 : p.key 2 with - | k2
  · rw [hk0, hk2] at hkeys
    cases hkeys
  · exact removeCell_leafRight hp hk0 hk2
  · exact removeCell_leafLeft hp hk0 hk2
  · exact removeCell_leafFull hp hk0 hk2

/-- A key is removed from an inner node without a left key. -/
theorem removeCell_right (hp : Gap (h + 1) p i) {k2 : E} (hk0 : p.key 0 = none)
    (hk2 : p.key 2 = some k2)
    (hn : Balanced (h + 1) iNew) :
    (p.removeCell i iNew false).toList = p.leftOf i ++ iNew.toList ++ p.rightOf (i + 1) ∧
      Balanced (h + 2) (p.removeCell i iNew false) := by
  obtain ⟨k1, hk1⟩ := Option.isSome_iff_exists.mp hp.key
  have hk3 := key_three p
  have hsome := hp.some
  have hz : (null : TreeNode E).isNull = true := rfl
  have hc0 := fun hne hne' => hp.unused (j := 0) (by omega) hne hne' (by simp [used, hk0])
  have hlt := hp.lt
  obtain rfl | rfl | rfl : i = 0 ∨ i = 1 ∨ i = 2 := by omega
  · simp [hk0] at hsome
  · have c0 := hc0 (by omega) (by omega)
    have c3 := hp.child (j := 3) (by omega) (by omega) (by omega) (by simp [used, hk2])
    have hcell : p.removeCell 1 iNew false =
        new none (some k2) none null iNew (p.getChildPtr 3) null := by
      simp [removeCell, hk2, hk3, c0, hz, c3.isNull]
    rw [hcell]
    refine ⟨?_, balanced_new rfl rfl hn c3 rfl⟩
    simp [toList_new, leftOf, rightOf, hk0, hk2, c0, toList]
  · have c0 := hc0 (by omega) (by omega)
    have c1 := hp.child (j := 1) (by omega) (by omega) (by omega) rfl
    have hcell : p.removeCell 2 iNew false =
        new none (some k1) none null (p.getChildPtr 1) iNew null := by
      simp [removeCell, hk1, hk3, c0, hz, c1.isNull]
    rw [hcell]
    refine ⟨?_, balanced_new rfl rfl c1 hn rfl⟩
    simp [toList_new, leftOf, rightOf, hk0, hk1, c0, toList]

/-- A key is removed from an inner node without a right key. -/
theorem removeCell_left (hp : Gap (h + 1) p i) {k0 : E} (hk0 : p.key 0 = some k0)
    (hk2 : p.key 2 = none)
    (hn : Balanced (h + 1) iNew) :
    (p.removeCell i iNew false).toList = p.leftOf i ++ iNew.toList ++ p.rightOf (i + 1) ∧
      Balanced (h + 2) (p.removeCell i iNew false) := by
  obtain ⟨k1, hk1⟩ := Option.isSome_iff_exists.mp hp.key
  have hk3 := key_three p
  have hsome := hp.some
  have hz : (null : TreeNode E).isNull = true := rfl
  have hc3 := fun hne hne' => hp.unused (j := 3) (by omega) hne hne' (by simp [used, hk2])
  have hlt := hp.lt
  obtain rfl | rfl | rfl : i = 0 ∨ i = 1 ∨ i = 2 := by omega
  · have c3 := hc3 (by omega) (by omega)
    have c2 := hp.child (j := 2) (by omega) (by omega) (by omega) rfl
    have hcell : p.removeCell 0 iNew false =
        new none (some k1) none null iNew (p.getChildPtr 2) null := by
      simp [removeCell, hk1, hk2, c3, hz, c2.isNull]
    rw [hcell]
    refine ⟨?_, balanced_new rfl rfl hn c2 rfl⟩
    simp [toList_new, leftOf, rightOf, hk1, hk2, c3, toList]
  · have c3 := hc3 (by omega) (by omega)
    have c0 := hp.child (j := 0) (by omega) (by omega) (by omega) (by simp [used, hk0])
    have hcell : p.removeCell 1 iNew false =
        new none (some k0) none null (p.getChildPtr 0) iNew null := by
      simp [removeCell, hk0, hk2, c3, hz, c0.isNull]
    rw [hcell]
    refine ⟨?_, balanced_new rfl rfl c0 hn rfl⟩
    simp [toList_new, leftOf, rightOf, hk0, hk2, c3, toList]
  · simp [hk2] at hsome

/-- A key is removed from a full inner node. -/
theorem removeCell_full (hp : Gap (h + 1) p i) {k0 k2 : E} (hk0 : p.key 0 = some k0)
    (hk2 : p.key 2 = some k2)
    (hn : Balanced (h + 1) iNew) :
    (p.removeCell i iNew false).toList = p.leftOf i ++ iNew.toList ++ p.rightOf (i + 1) ∧
      Balanced (h + 2) (p.removeCell i iNew false) := by
  obtain ⟨k1, hk1⟩ := Option.isSome_iff_exists.mp hp.key
  have hk3 := key_three p
  match i, hp.lt with
  | 0, _ =>
      have c2 := hp.child (j := 2) (by omega) (by omega) (by omega) rfl
      have c3 := hp.child (j := 3) (by omega) (by omega) (by omega) (by simp [used, hk2])
      have hcell : p.removeCell 0 iNew false =
          new none (some k1) (some k2) null iNew (p.getChildPtr 2) (p.getChildPtr 3) := by
        simp [removeCell, hk1, hk2, hk3, c2.isNull, c3.isNull]
      rw [hcell]
      refine ⟨?_, balanced_new rfl rfl hn c2 c3⟩
      simp [toList_new, leftOf, rightOf, hk1, hk2, toList]
  | 1, _ =>
      have c0 := hp.child (j := 0) (by omega) (by omega) (by omega) (by simp [used, hk0])
      have c3 := hp.child (j := 3) (by omega) (by omega) (by omega) (by simp [used, hk2])
      have hcell : p.removeCell 1 iNew false =
          new none (some k0) (some k2) null (p.getChildPtr 0) iNew (p.getChildPtr 3) := by
        simp [removeCell, hk0, hk2, hk3, c0.isNull, c3.isNull]
      rw [hcell]
      refine ⟨?_, balanced_new rfl rfl c0 hn c3⟩
      simp [toList_new, leftOf, rightOf, hk0, hk2, toList]
  | 2, _ =>
      have c0 := hp.child (j := 0) (by omega) (by omega) (by omega) (by simp [used, hk0])
      have c1 := hp.child (j := 1) (by omega) (by omega) (by omega) rfl
      have hcell : p.removeCell 2 iNew false =
          new none (some k0) (some k1) null (p.getChildPtr 0) (p.getChildPtr 1) iNew := by
        simp [removeCell, hk0, hk1, hk3, c0.isNull, c1.isNull]
      rw [hcell]
      refine ⟨?_, balanced_new rfl rfl c0 c1 hn⟩
      simp [toList_new, leftOf, rightOf, hk0, hk1, toList]

/-- A key is removed from an inner node with two keys or more. -/
theorem removeCell_inner (hp : Gap (h + 1) p i)
    (hkeys : ((p.key 0).isSome || (p.key 2).isSome) = true) (hn : Balanced (h + 1) iNew) :
    (p.removeCell i iNew false).toList = p.leftOf i ++ iNew.toList ++ p.rightOf (i + 1) ∧
      Balanced (h + 2) (p.removeCell i iNew false) := by
  rcases hk0 : p.key 0 with - | k0 <;> rcases hk2 : p.key 2 with - | k2
  · rw [hk0, hk2] at hkeys
    cases hkeys
  · exact removeCell_right hp hk0 hk2 hn
  · exact removeCell_left hp hk0 hk2 hn
  · exact removeCell_full hp hk0 hk2 hn

theorem removeCell_spec (bLeaf : Bool) (hp : Gap h p i)
    (hkeys : ((p.key 0).isSome || (p.key 2).isSome) = true) (hn : Balanced h iNew)
    (hleaf : bLeaf = decide (h = 0)) :
    (p.removeCell i iNew bLeaf).toList = p.leftOf i ++ iNew.toList ++ p.rightOf (i + 1) ∧
      Balanced (h + 1) (p.removeCell i iNew bLeaf) := by
  cases h with
  | zero =>
      rw [show bLeaf = true from hleaf, show iNew = null from hn]
      obtain ⟨hlist, hbal⟩ := removeCell_leaf hp hkeys
      refine ⟨?_, hbal⟩
      rw [hlist, toList, List.append_nil]
  | succ h =>
      rw [show bLeaf = false from hleaf]
      exact removeCell_inner hp hkeys hn

theorem rightOf_eq (hj : j < 3) : p.rightOf j =
    (p.key j).toList ++ (p.getChildPtr (j + 1)).toList ++ p.rightOf (j + 1) := by
  match j, hj with
  | 0, _ | 1, _ | 2, _ => simp [rightOf]

/-- The copy of the parent with two new nodes around a key. -/
theorem shareParent_spec {n1 n2 : TreeNode E} {k : Option E} (hp : Gap h p j) (hk : k.isSome)
    (h1 : Balanced h n1) (h2 : Balanced h n2) :
    (p.shareParent j n1 k n2).toList = p.leftOf j ++ n1.toList ++ k.toList ++ n2.toList ++
        p.rightOf (j + 1) ∧
      Balanced (h + 1) (p.shareParent j n1 k n2) := by
  have hne : p ≠ null := by
    rintro rfl
    cases hp.key
  have hcopy : p.copy = new (p.key 0) (p.key 1) (p.key 2) (p.getChildPtr 0) (p.getChildPtr 1)
      (p.getChildPtr 2) (p.getChildPtr 3) := by
    cases p with
    | null => exact absurd rfl hne
    | node => rfl
  have hother := hp.other
  match j, hp.lt with
  | 0, _ =>
      have heq : p.shareParent 0 n1 k n2 =
          new k (p.key 1) (p.key 2) n1 n2 (p.getChildPtr 2) (p.getChildPtr 3) := by
        rw [shareParent, hcopy]
        rfl
      rw [heq]
      refine ⟨?_, balanced_new hp.key (by rw [hk]; exact h1) h2
        (hp.child (by omega) (by omega) (by omega) rfl) (hother 3 (by omega) (by omega) (by omega))⟩
      simp [toList_new, leftOf, rightOf]
  | 1, _ =>
      have heq : p.shareParent 1 n1 k n2 =
          new (p.key 0) k (p.key 2) (p.getChildPtr 0) n1 n2 (p.getChildPtr 3) := by
        rw [shareParent, hcopy]
        rfl
      rw [heq]
      refine ⟨?_, balanced_new hk (hother 0 (by omega) (by omega) (by omega)) h1 h2
        (hother 3 (by omega) (by omega) (by omega))⟩
      simp [toList_new, leftOf, rightOf]
  | 2, _ =>
      have heq : p.shareParent 2 n1 k n2 =
          new (p.key 0) (p.key 1) k (p.getChildPtr 0) (p.getChildPtr 1) n1 n2 := by
        rw [shareParent, hcopy]
        rfl
      rw [heq]
      refine ⟨?_, balanced_new hp.key (hother 0 (by omega) (by omega) (by omega))
        (hp.child (by omega) (by omega) (by omega) rfl) h1 (by rw [hk]; exact h2)⟩
      simp [toList_new, leftOf, rightOf]

/-- What a full peer and the node give: two nodes around a key. -/
theorem share_spec (bLeft : Bool) (hq : Balanced (h + 1) q)
    (hfull : ((q.key 0).isSome && (q.key 2).isSome) = true) (hk : (p.key j).isSome)
    (hn : Balanced h iNew) :
    (p.shareFirst q j bLeft iNew).toList ++ (if bLeft then q.key 1 else q.key 0).toList ++
        (p.shareSecond q j bLeft iNew).toList =
      (if bLeft then q.toList ++ (p.key j).toList ++ iNew.toList
        else iNew.toList ++ (p.key j).toList ++ q.toList) ∧
      Balanced (h + 1) (p.shareFirst q j bLeft iNew) ∧
      Balanced (h + 1) (p.shareSecond q j bLeft iNew) := by
  obtain ⟨h0, h2⟩ := Bool.and_eq_true_iff.mp hfull
  have c0 := hq.child (i := 0) (by omega) h0
  have c1 := hq.child (i := 1) (by omega) rfl
  have c2 := hq.child (i := 2) (by omega) rfl
  have c3 := hq.child (i := 3) (by omega) h2
  cases bLeft with
  | true =>
      refine ⟨?_, balanced_new h0 rfl c0 c1 rfl, balanced_new hk (by rw [h2]; exact c2) c3 hn rfl⟩
      rw [toList_eq q]
      simp [shareFirst, shareSecond, toList_new, toList]
  | false =>
      refine ⟨?_, balanced_new hk rfl hn c0 rfl, balanced_new h2 (by rw [hq.1]; exact c1) c2 c3 rfl⟩
      rw [toList_eq q]
      simp [shareFirst, shareSecond, toList_new, toList]

/-- Leaves have no children to be counted, other nodes have all those that are used. -/
theorem mergePeer_counts (hq : Balanced (h + 1) q) (hn : Balanced h iNew) :
    ((∀ i < 4, q.getChildPtr i = null) ∧ iNew = null) ∨
      ∀ i < 4, (q.getChildPtr i).isNull = !q.used i := by
  cases h with
  | zero => exact .inl ⟨hq.leaf_child, hn⟩
  | succ h =>
      refine .inr fun i hi => ?_
      rcases hu : q.used i with - | -
      · have := hq.2 i hi
        rw [hu, if_neg Bool.false_ne_true] at this
        rw [this]
        rfl
      · rw [(hq.child hi hu).isNull]
        rfl

/-- The peer is not full: it takes the key of the parent. -/
theorem mergePeer_spec (bLeft : Bool) (hq : Balanced (h + 1) q)
    (hfull : ((q.key 0).isSome && (q.key 2).isSome) = false) (hk : (p.key j).isSome)
    (hn : Balanced h iNew) :
    (p.mergePeer q j bLeft iNew).toList =
      (if bLeft then q.toList ++ (p.key j).toList ++ iNew.toList
        else iNew.toList ++ (p.key j).toList ++ q.toList) ∧
      Balanced (h + 1) (p.mergePeer q j bLeft iNew) := by
  obtain ⟨k1, hk1⟩ := Option.isSome_iff_exists.mp hq.1
  obtain ⟨kp, hkp⟩ := Option.isSome_iff_exists.mp hk
  have hz : (null : TreeNode E).isNull = true := rfl
  have c1 := hq.child (i := 1) (by omega) rfl
  have c2 := hq.child (i := 2) (by omega) rfl
  have hcount := mergePeer_counts hq hn
  rw [toList_eq q]
  rcases hk0 : q.key 0 with - | k0 <;> rcases hk2 : q.key 2 with - | k2 <;>
    rw [hk0, hk2] at hfull
  · -- the peer has its middle key only
    have c0 : q.getChildPtr 0 = null := by simpa [used, hk0] using hq.2 0 (by omega)
    have c3 : q.getChildPtr 3 = null := by simpa [used, hk2] using hq.2 3 (by omega)
    cases bLeft with
    | true =>
        have heq : p.mergePeer q j true iNew = new (some k1) (some kp) none
            (q.getChildPtr 1) (q.getChildPtr 2) iNew null := by
          rcases hcount with ⟨hc, rfl⟩ | hc <;>
            simp [mergePeer, hk0, hk1, hk2, hkp, c0, c3, hc, used, hz]
        rw [heq]
        refine ⟨?_, balanced_new rfl c1 c2 hn rfl⟩
        simp [toList_new, hk1, hkp, c0, c3, toList]
    | false =>
        have heq : p.mergePeer q j false iNew = new (some kp) (some k1) none iNew
            (q.getChildPtr 1) (q.getChildPtr 2) null := by
          rcases hcount with ⟨hc, rfl⟩ | hc <;>
            simp [mergePeer, hk0, hk1, hk2, hkp, c0, c3, hc, used, hz]
        rw [heq]
        refine ⟨?_, balanced_new rfl hn c1 c2 rfl⟩
        simp [toList_new, hk1, hkp, c0, c3, toList]
  · -- the middle and the right key
    have c0 : q.getChildPtr 0 = null := by simpa [used, hk0] using hq.2 0 (by omega)
    have c3 := hq.child (i := 3) (by omega) (by simp [used, hk2])
    cases bLeft with
    | true =>
        have heq : p.mergePeer q j true iNew = new (some k1) (some k2) (some kp)
            (q.getChildPtr 1) (q.getChildPtr 2) (q.getChildPtr 3) iNew := by
          rcases hcount with ⟨hc, rfl⟩ | hc <;>
            simp [mergePeer, hk0, hk1, hk2, hkp, c0, hc, used, hz]
        rw [heq]
        refine ⟨?_, balanced_new rfl c1 c2 c3 hn⟩
        simp [toList_new, hk1, hkp, c0, toList]
    | false =>
        have heq : p.mergePeer q j false iNew = new (some kp) (some k1) (some k2) iNew
            (q.getChildPtr 1) (q.getChildPtr 2) (q.getChildPtr 3) := by
          rcases hcount with ⟨hc, rfl⟩ | hc <;>
            simp [mergePeer, hk0, hk1, hk2, hkp, c0, hc, used, hz]
        rw [heq]
        refine ⟨?_, balanced_new rfl hn c1 c2 c3⟩
        simp [toList_new, hk1, hkp, c0, toList]
  · -- the left and the middle key
    have c0 := hq.child (i := 0) (by omega) (by simp [used, hk0])
    have c3 : q.getChildPtr 3 = null := by simpa [used, hk2] using hq.2 3 (by omega)
    cases bLeft with
    | true =>
        have heq : p.mergePeer q j true iNew = new (some k0) (some k1) (some kp)
            (q.getChildPtr 0) (q.getChildPtr 1) (q.getChildPtr 2) iNew := by
          rcases hcount with ⟨hc, rfl⟩ | hc <;>
            simp [mergePeer, hk0, hk1, hk2, hkp, c3, hc, used, hz]
        rw [heq]
        refine ⟨?_, balanced_new rfl c0 c1 c2 hn⟩
        simp [toList_new, hk1, hkp, c3, toList]
    | false =>
        have heq : p.mergePeer q j false iNew = new (some kp) (some k0) (some k1) iNew
            (q.getChildPtr 0) (q.getChildPtr 1) (q.getChildPtr 2) := by
          rcases hcount with ⟨hc, rfl⟩ | hc <;>
            simp [mergePeer, hk0, hk1, hk2, hkp, c3, hc, used, hz]
        rw [heq]
        refine ⟨?_, balanced_new rfl hn c0 c1 c2⟩
        simp [toList_new, hk1, hkp, c3, toList]
  · -- three keys: nothing is merged
    cases hfull

/-- The peer of a node, with the key between them. -/
theorem peer_spec {s : ℕ} (hp : Hole (h + 1) p s) :
    Balanced (h + 1) (p.peer s) ∧ Gap (h + 1) p (p.peerSlot s) ∧
      ∀ l : List E, p.leftOf s ++ l ++ p.rightOf s = p.leftOf (p.peerSlot s) ++
        (if p.peerLeft s then (p.peer s).toList ++ (p.key (p.peerSlot s)).toList ++ l
          else l ++ (p.key (p.peerSlot s)).toList ++ (p.peer s).toList) ++
        p.rightOf (p.peerSlot s + 1) := by
  -- the child left of the node is there if and only if a key is between them
  have hiff : p.peerLeft s = true ↔ 0 < s ∧ p.used (s - 1) = true := by
    rw [peerLeft, Bool.and_eq_true, decide_eq_true_iff, Bool.not_eq_true']
    refine and_congr_right fun hs => ?_
    have := hp.other (s - 1) (by have := hp.lt; omega) (by omega)
    split_ifs at this with hu
    · exact iff_of_true this.isNull hu
    · rw [this]
      exact iff_of_false (fun h => by cases h) hu
  cases hleft : p.peerLeft s with
  | true =>
      obtain ⟨hs, hu⟩ := hiff.mp hleft
      obtain ⟨j, rfl⟩ : ∃ j, s = j + 1 := ⟨s - 1, by omega⟩
      have hslot : p.peerSlot (j + 1) = j := by rw [peerSlot, hleft]; rfl
      have hpeer : p.peer (j + 1) = p.getChildPtr j := by rw [peer, hleft]; rfl
      have hlt := hp.lt
      rw [hslot, hpeer]
      refine ⟨hp.child (by omega) (by omega) hu, ⟨by omega, ?_, hp.key, fun i hi _ hne =>
        hp.other i hi hne⟩, fun l => ?_⟩
      · have hused := hp.used
        obtain rfl | rfl | rfl : j = 0 ∨ j = 1 ∨ j = 2 := by omega
        · exact hu
        · exact hp.key
        · exact hused
      · simp only [leftOf, if_true, List.append_assoc]
  | false =>
      have hnot : ¬ (0 < s ∧ p.used (s - 1) = true) := fun h => by
        rw [hiff.mpr h] at hleft
        cases hleft
      have hslot : p.peerSlot s = s := by rw [peerSlot, hleft]; rfl
      have hpeer : p.peer s = p.getChildPtr (s + 1) := by rw [peer, hleft]; rfl
      have hs : s = 0 ∨ s = 1 := by
        have hlt := hp.lt
        obtain h | rfl | rfl : s < 2 ∨ s = 2 ∨ s = 3 := by omega
        · omega
        · exact absurd ⟨by omega, rfl⟩ hnot
        · exact absurd ⟨by omega, rfl⟩ hnot
      have hkey : (p.key s).isSome := by
        have hused := hp.used
        rcases hs with rfl | rfl
        · exact hused
        · exact hp.key
      rw [hslot, hpeer]
      refine ⟨hp.child (by omega) (by omega) ?_, ⟨by omega, hkey, hp.key, fun i hi hne _ =>
        hp.other i hi hne⟩, fun l => ?_⟩
      · rcases hs with rfl | rfl <;> rfl
      · rw [rightOf_eq (by omega : s < 3)]
        simp only [Bool.false_eq_true, if_false, List.append_assoc]

/-- The only key of a node is the middle one. -/
theorem Gap.single (hp : Gap h p i)
    (hkeys : ((p.key 0).isSome || (p.key 2).isSome) = false) :
    p.leftOf i = [] ∧ p.rightOf (i + 1) = [] := by
  obtain ⟨h0, h2⟩ := Bool.or_eq_false_iff.mp hkeys
  have hsome := hp.some
  match i, hp.lt with
  | 0, _ => exact absurd hsome (by rw [h0]; exact Bool.false_ne_true)
  | 1, _ =>
      have c0 := hp.unused (j := 0) (by omega) (by omega) (by omega) h0
      have c3 := hp.unused (j := 3) (by omega) (by omega) (by omega) h2
      simp [leftOf, rightOf, c0, c3, toList, Option.not_isSome_iff_eq_none.mp
        (Bool.eq_false_iff.mp h0), Option.not_isSome_iff_eq_none.mp (Bool.eq_false_iff.mp h2)]
  | 2, _ => exact absurd hsome (by rw [h2]; exact Bool.false_ne_true)

/-- Deletion from a node with keys to spare. -/
theorem treeDeleteEntry_keys (hp : Gap h p i) (hpath : Holes (h + 1) path H)
    (hn : Balanced h iNew) (hkeys : ((p.key 0).isSome || (p.key 2).isSome) = true) :
    (treeDeleteEntry H p i iNew path).iRoot.toList =
        before path ++ p.leftOf i ++ iNew.toList ++ p.rightOf (i + 1) ++ after path ∧
      Balanced (treeDeleteEntry H p i iNew path).nHeight
        (treeDeleteEntry H p i iNew path).iRoot := by
  have hH := hpath.height
  cases path with
  | nil =>
      obtain ⟨hlist, hbal⟩ := removeCell_spec (decide (H = 1)) hp hkeys hn (by rw [hH]; simp)
      have heq : treeDeleteEntry H p i iNew [] = ⟨p.removeCell i iNew (decide (H = 1)), H⟩ := by
        rw [treeDeleteEntry, if_pos hkeys]
      rw [heq]
      refine ⟨by simp [hlist, before, after], ?_⟩
      show Balanced H _
      rw [hH] at hbal ⊢
      exact hbal
  | cons a path =>
      simp only [List.length_cons] at hH
      obtain ⟨hlist, hbal⟩ := removeCell_spec
        ((path.length + 2 = H && 1 < H) || H = 1) hp hkeys hn (by
          by_cases hz : h = 0 <;> simp [hz, hH] <;> omega)
      obtain ⟨hlist', hbal'⟩ := treeUpdatePtr_spec hpath hbal
      have heq : treeDeleteEntry H p i iNew (a :: path) =
          ⟨treeUpdatePtr (a :: path) (p.removeCell i iNew
            ((path.length + 2 = H && 1 < H) || H = 1)), H⟩ := by
        rw [treeDeleteEntry, if_pos hkeys]
      rw [heq]
      refine ⟨?_, hbal'⟩
      rw [hlist', hlist]
      simp only [List.append_assoc]

/-- Deletion of the only key of a node, whose peer gives one away. -/
theorem treeDeleteEntry_share {q : TreeNode E} {s : ℕ} (hhole : Hole (h + 1) q s)
    (hrest : Holes (h + 2) path H) (hn : Balanced h iNew)
    (hkeys : ((p.key 0).isSome || (p.key 2).isSome) = false)
    (hfull : (((q.peer s).key 0).isSome && ((q.peer s).key 2).isSome) = true) :
    (treeDeleteEntry H p i iNew ((q, s) :: path)).iRoot.toList =
        before path ++ (q.leftOf s ++ iNew.toList ++ q.rightOf s) ++ after path ∧
      Balanced (treeDeleteEntry H p i iNew ((q, s) :: path)).nHeight
        (treeDeleteEntry H p i iNew ((q, s) :: path)).iRoot := by
  obtain ⟨hpeer, hgap, hsplit⟩ := peer_spec hhole
  obtain ⟨hlist, h1, h2⟩ := share_spec (q.peerLeft s) hpeer hfull hgap.some hn
  have hk : (if q.peerLeft s then (q.peer s).key 1 else (q.peer s).key 0).isSome := by
    split_ifs
    · exact hpeer.1
    · exact (Bool.and_eq_true_iff.mp hfull).1
  obtain ⟨hlist', hbal'⟩ := shareParent_spec hgap hk h1 h2
  obtain ⟨hlist'', hbal''⟩ := treeUpdatePtr_spec hrest hbal'
  have heq : treeDeleteEntry H p i iNew ((q, s) :: path) =
      ⟨treeUpdatePtr path (q.shareParent (q.peerSlot s)
        (q.shareFirst (q.peer s) (q.peerSlot s) (q.peerLeft s) iNew)
        (if q.peerLeft s then (q.peer s).key 1 else (q.peer s).key 0)
        (q.shareSecond (q.peer s) (q.peerSlot s) (q.peerLeft s) iNew)), H⟩ := by
    rw [treeDeleteEntry, hkeys, if_neg Bool.false_ne_true]
    exact if_pos hfull
  rw [heq, hsplit]
  refine ⟨?_, hbal''⟩
  rw [hlist'', hlist', ← hlist]
  simp only [List.append_assoc]

/-- **A key is removed**, with the two trees next to it replaced by one. -/
theorem treeDeleteEntry_spec (hp : Gap h p i) (hpath : Holes (h + 1) path H)
    (hn : Balanced h iNew) :
    (treeDeleteEntry H p i iNew path).iRoot.toList =
        before path ++ p.leftOf i ++ iNew.toList ++ p.rightOf (i + 1) ++ after path ∧
      Balanced (treeDeleteEntry H p i iNew path).nHeight
        (treeDeleteEntry H p i iNew path).iRoot := by
  induction path generalizing h p i iNew with
  | nil =>
      cases hkeys : (p.key 0).isSome || (p.key 2).isSome with
      | true => exact treeDeleteEntry_keys hp hpath hn hkeys
      | false =>
          have hH : H = h + 1 := hpath
          obtain ⟨hl, hr⟩ := hp.single hkeys
          have heq : treeDeleteEntry H p i iNew [] = ⟨iNew, H - 1⟩ := by
            rw [treeDeleteEntry, hkeys]
            rfl
          rw [heq]
          refine ⟨by simp [hl, hr, before, after], ?_⟩
          show Balanced (H - 1) iNew
          rw [hH]
          exact hn
  | cons a path ih =>
      cases hkeys : (p.key 0).isSome || (p.key 2).isSome with
      | true => exact treeDeleteEntry_keys hp hpath hn hkeys
      | false =>
          obtain ⟨q, s⟩ := a
          obtain ⟨hhole, hrest⟩ := hpath
          obtain ⟨hl, hr⟩ := hp.single hkeys
          have hb : before ((q, s) :: path) = before path ++ q.leftOf s := rfl
          have ha : after ((q, s) :: path) = q.rightOf s ++ after path := rfl
          -- what stands between the two parts of the path of the parent
          have hgoal : before ((q, s) :: path) ++ p.leftOf i ++ iNew.toList ++ p.rightOf (i + 1) ++
              after ((q, s) :: path) =
              before path ++ (q.leftOf s ++ iNew.toList ++ q.rightOf s) ++ after path := by
            rw [hl, hr, hb, ha]
            simp only [List.append_assoc, List.append_nil]
          rw [hgoal]
          cases hfull : ((q.peer s).key 0).isSome && ((q.peer s).key 2).isSome with
          | true => exact treeDeleteEntry_share hhole hrest hn hkeys hfull
          | false =>
              obtain ⟨hpeer, hgap, hsplit⟩ := peer_spec hhole
              obtain ⟨hlist, hbal⟩ := mergePeer_spec (q.peerLeft s) hpeer hfull hgap.some hn
              obtain ⟨hlist', hbal'⟩ := ih hgap hrest hbal
              have heq : treeDeleteEntry H p i iNew ((q, s) :: path) =
                  treeDeleteEntry H q (q.peerSlot s)
                    (q.mergePeer (q.peer s) (q.peerSlot s) (q.peerLeft s) iNew) path := by
                rw [treeDeleteEntry, hkeys, if_neg Bool.false_ne_true]
                exact if_neg (by rw [hfull]; exact Bool.false_ne_true)
              rw [heq, hsplit]
              refine ⟨?_, hbal'⟩
              rw [hlist', hlist]
              simp only [List.append_assoc]

end Delete

end TreeNode

end Lsm

end MoVeBench
