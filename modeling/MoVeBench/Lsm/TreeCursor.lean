/-
MoVeBench/Lsm/TreeCursor.lean

Cursors on the in-memory tree.

A cursor is a path from the root, the current node first.  `Chain` says that a path
is one of the tree; what the tree holds is then what comes before the path, what is
below it, and what comes after it.
-/
import MoVeBench.Lsm.TreeDelete

namespace MoVeBench

namespace Lsm

namespace TreeNode

variable {E : Type}

/-! ### Paths of a tree -/

/-- The path leads from the root to `c`, a node of height `h`. -/
def Chain (root : TreeNode E) (H : ℕ) : ℕ → Path E → TreeNode E → Prop
  | h, [], c => c = root ∧ H = h
  | h, (p, i) :: path, c =>
      p.getChildPtr i = c ∧ i < 4 ∧ p.used i = true ∧ Chain root H (h + 1) path p

/-- The key left of the path, of the nearest node that has one there. -/
def prevKey : Path E → Option E
  | [] => none
  | (p, i) :: path => (if 0 < i then p.key (i - 1) else none).or (prevKey path)

/-- The key right of the path. -/
def nextKey : Path E → Option E
  | [] => none
  | (p, i) :: path => (p.key i).or (nextKey path)

section Chain

variable {root p c : TreeNode E} {path : Path E} {i h H : ℕ}

theorem Chain.balanced (hroot : Balanced H root) (hp : Chain root H h path c) : Balanced h c := by
  induction path generalizing h c with
  | nil =>
      obtain ⟨rfl, rfl⟩ := hp
      exact hroot
  | cons a path ih =>
      obtain ⟨p, i⟩ := a
      obtain ⟨rfl, hi, hu, hrest⟩ := hp
      exact (ih hrest).child hi hu

theorem Chain.holes (hroot : Balanced H root) (hp : Chain root H h path c) : Holes h path H := by
  induction path generalizing h c with
  | nil => exact hp.2
  | cons a path ih =>
      obtain ⟨p, i⟩ := a
      obtain ⟨-, hi, hu, hrest⟩ := hp
      exact ⟨(hrest.balanced hroot).hole hi hu, ih hrest⟩

/-- What the tree holds, around a path. -/
theorem Chain.toList (hp : Chain root H h path c) :
    root.toList = before path ++ c.toList ++ after path := by
  induction path generalizing h c with
  | nil =>
      obtain ⟨rfl, -⟩ := hp
      simp [before, after]
  | cons a path ih =>
      obtain ⟨p, i⟩ := a
      obtain ⟨rfl, hi, -, hrest⟩ := hp
      rw [ih hrest, toList_split hi, before, after]
      simp only [List.append_assoc]

theorem Chain.child (hp : Chain root H (h + 1) path p) (hi : i < 4) (hu : p.used i = true) :
    Chain root H h ((p, i) :: path) (p.getChildPtr i) := ⟨rfl, hi, hu, hp⟩

/-- The tree around a key. -/
theorem Chain.toList_key {e : E} (hp : Chain root H h path p) (hi : i < 3)
    (hk : p.key i = some e) : root.toList =
      (before path ++ p.leftOf i ++ (p.getChildPtr i).toList) ++
        e :: ((p.getChildPtr (i + 1)).toList ++ p.rightOf (i + 1) ++ after path) := by
  rw [hp.toList, toList_split_key hi, hk]
  simp only [Option.toList_some, List.append_assoc, List.cons_append, List.nil_append]

/-- After a pointer has been replaced, a path to the new node is there. -/
theorem plug_chain (hp : Holes h path H) (hc : Balanced h c) :
    ∃ path', Chain (plug path c) H h path' c ∧ before path' = before path ∧
      after path' = after path := by
  induction path generalizing h c with
  | nil => exact ⟨[], ⟨rfl, hp⟩, rfl, rfl⟩
  | cons a path ih =>
      obtain ⟨p, i⟩ := a
      obtain ⟨hhole, hrest⟩ := hp
      have hu := setWorking_updated hhole.ne_null hhole.lt c
      obtain ⟨path', hchain, hb, ha⟩ := ih hrest (hu.balanced hhole hc)
      refine ⟨(p.setWorking i c, i) :: path', ⟨hu.child, hhole.lt, (hu.used i).trans hhole.used,
        hchain⟩, ?_, ?_⟩
      · rw [before, before, hb, hu.leftOf (Nat.le_refl _) hhole.lt]
      · rw [after, after, ha, hu.rightOf hhole.lt]

theorem treeUpdatePtr_chain (hp : Holes h path H) (hc : Balanced h c) :
    ∃ path', Chain (treeUpdatePtr path c) H h path' c ∧ before path' = before path ∧
      after path' = after path := by
  induction path generalizing h c with
  | nil => exact ⟨[], ⟨rfl, hp⟩, rfl, rfl⟩
  | cons a path ih =>
      obtain ⟨p, i⟩ := a
      obtain ⟨hhole, hrest⟩ := hp
      rw [treeUpdatePtr]
      split_ifs with hv
      · have hu := copy_updated hhole.ne_null hhole.lt c
        obtain ⟨path', hchain, hb, ha⟩ := ih hrest (hu.balanced hhole hc)
        refine ⟨(p.copy.setChild i c, i) :: path', ⟨hu.child, hhole.lt,
          (hu.used i).trans hhole.used, hchain⟩, ?_, ?_⟩
        · rw [before, before, hb, hu.leftOf (Nat.le_refl _) hhole.lt]
        · rw [after, after, ha, hu.rightOf hhole.lt]
      · have hu := setV2_updated hhole.ne_null (Bool.eq_false_iff.mpr hv) (i := i) c
        obtain ⟨path', hchain, hb, ha⟩ := plug_chain hrest (hu.balanced hhole hc)
        refine ⟨(p.setV2 i c, i) :: path', ⟨hu.child, hhole.lt, (hu.used i).trans hhole.used,
          hchain⟩, ?_, ?_⟩
        · rw [before, before, hb, hu.leftOf (Nat.le_refl _) hhole.lt]
        · rw [after, after, ha, hu.rightOf hhole.lt]

/-- Nothing is left of a pointer in use, if there is no key left of it. -/
theorem Hole.leftOf_eq (hp : Hole h p i) :
    (p.leftOf i).getLast? = if 0 < i then p.key (i - 1) else none := by
  have hlt := hp.lt
  cases i with
  | zero => rfl
  | succ j =>
      rw [if_pos (Nat.succ_pos j), Nat.add_sub_cancel, leftOf]
      rcases hk : p.key j with - | e
      · have hj : j = 0 := by
          have hkey := hp.key
          have hused := hp.used
          obtain rfl | rfl | rfl : j = 0 ∨ j = 1 ∨ j = 2 := by omega
          · rfl
          · exact absurd hkey (by rw [hk]; exact Bool.false_ne_true)
          · exact absurd hused (by rw [TreeNode.used, hk]; exact Bool.false_ne_true)
        subst hj
        have c0 := hp.unused (j := 0) (by omega) (by omega) (by rw [TreeNode.used, hk]; rfl)
        simp [leftOf, c0, toList]
      · simp

theorem Hole.rightOf_eq (hp : Hole h p i) : (p.rightOf i).head? = p.key i := by
  have hkey := hp.key
  have hused := hp.used
  match i, hp.lt with
  | 0, _ =>
      obtain ⟨e, he⟩ := Option.isSome_iff_exists.mp hused
      rw [he]
      simp [rightOf, he]
  | 1, _ =>
      obtain ⟨e, he⟩ := Option.isSome_iff_exists.mp hkey
      rw [he]
      simp [rightOf, he]
  | 2, _ =>
      rcases hk : p.key 2 with - | e
      · have c3 := hp.unused (j := 3) (by omega) (by omega) (by rw [TreeNode.used, hk]; rfl)
        simp [rightOf, hk, c3, toList]
      · simp [rightOf, hk]
  | 3, _ => exact (key_three p).symm

/-- `prevKey` is the last entry before the path. -/
theorem getLast?_before (hp : Holes h path H) : (before path).getLast? = prevKey path := by
  induction path generalizing h with
  | nil => rfl
  | cons a path ih =>
      obtain ⟨p, i⟩ := a
      obtain ⟨hhole, hrest⟩ := hp
      rw [before, List.getLast?_append, hhole.leftOf_eq, ih hrest, prevKey]

theorem head?_after (hp : Holes h path H) : (after path).head? = nextKey path := by
  induction path generalizing h with
  | nil => rfl
  | cons a path ih =>
      obtain ⟨p, i⟩ := a
      obtain ⟨hhole, hrest⟩ := hp
      rw [after, List.head?_append, hhole.rightOf_eq, ih hrest, nextKey]

end Chain

/-! ### Moving a cursor -/

/-- The first key below a node with `n` levels. -/
def firstBelow : ℕ → TreeNode E → Path E → Path E
  | 0, _, path => path
  | n + 1, p, path =>
      let iCell := if (p.key 0).isSome then 0 else 1
      firstBelow n (p.getChildPtr iCell) ((p, iCell) :: path)

/-- The last key. -/
def lastBelow : ℕ → TreeNode E → Path E → Path E
  | 0, _, path => path
  | n + 1, p, path =>
      let iCell := 1 + (if (p.key 2).isSome then 1 else 0) + (if 0 < n then 1 else 0)
      lastBelow n (p.getChildPtr iCell) ((p, iCell) :: path)

/-- Up to a node with a key right of the pointer. -/
def nextUp : Path E → Path E
  | [] => []
  | (p, i) :: path => if i < 3 && (p.key i).isSome then (p, i) :: path else nextUp path

/-- Up to a node with a key left of the pointer. -/
def prevUp : Path E → Path E
  | [] => []
  | (p, i) :: path =>
      if 0 < i && (p.key (i - 1)).isSome then (p, i - 1) :: path else prevUp path

def lsmTreeCursorNext (nHeight : ℕ) : Path E → Path E
  | [] => []
  | (p, i) :: path =>
      if path.length + 1 < nHeight && !(p.getChildPtr (i + 1)).isNull then
        firstBelow (nHeight - (path.length + 1)) (p.getChildPtr (i + 1)) ((p, i + 1) :: path)
      else if 3 ≤ i + 1 || (p.key (i + 1)).isNone then nextUp path
      else (p, i + 1) :: path

def lsmTreeCursorPrev (nHeight : ℕ) : Path E → Path E
  | [] => []
  | (p, i) :: path =>
      if path.length + 1 < nHeight && !(p.getChildPtr i).isNull then
        lastBelow (nHeight - (path.length + 1)) (p.getChildPtr i) ((p, i) :: path)
      else prevUp ((p, i) :: path)

/-- The cursor is at the entry `e`, between `l` and `r`. -/
def CursorAt (root : TreeNode E) (H : ℕ) (l : List E) (e : E) (r : List E) : Path E → Prop
  | [] => False
  | (p, i) :: path => i < 3 ∧ p.key i = some e ∧ (∃ h, Chain root H (h + 1) path p) ∧
      l = before path ++ p.leftOf i ++ (p.getChildPtr i).toList ∧
      r = (p.getChildPtr (i + 1)).toList ++ p.rightOf (i + 1) ++ after path

/-- The cursor is at the first entry after `l`, or at the end. -/
def LeadsTo (root : TreeNode E) (H : ℕ) (l : List E) : List E → Path E → Prop
  | [], path => path = []
  | e :: r, path => CursorAt root H l e r path

section Moves

variable {root p c : TreeNode E} {path : Path E} {i h n H : ℕ} {l r : List E} {e : E}

theorem CursorAt.toList (hc : CursorAt root H l e r path) : root.toList = l ++ e :: r := by
  match path, hc with
  | (p, i) :: path, hc =>
      obtain ⟨hi, hk, ⟨h, hchain⟩, rfl, rfl⟩ := hc
      exact hchain.toList_key hi hk

theorem used_succ (hi : i < 3) (hk : p.key i = some e) :
    p.used (i + 1) = true := by
  match i, hi with
  | 0, _ | 1, _ => rfl
  | 2, _ => rw [used, hk]; rfl

/-- The first cell of a node. -/
theorem Balanced.first (hp : Balanced (h + 1) p) :
    p.leftOf (if (p.key 0).isSome then 0 else 1) = [] ∧
      (p.key (if (p.key 0).isSome then 0 else 1)).isSome ∧
      p.used (if (p.key 0).isSome then 0 else 1) = true := by
  split_ifs with h0
  · exact ⟨rfl, h0, h0⟩
  · have hk0 : p.key 0 = none := Option.not_isSome_iff_eq_none.mp h0
    have hc0 : p.getChildPtr 0 = null := by simpa [used, hk0] using hp.2 0 (by omega)
    refine ⟨?_, hp.1, rfl⟩
    simp [leftOf, hk0, hc0, toList]

theorem firstBelow_spec (hroot : Balanced H root) (hc : Chain root H (n + 1) path c) :
    ∃ e r, CursorAt root H (before path) e r (firstBelow (n + 1) c path) ∧
      (firstBelow (n + 1) c path).length = H := by
  induction n generalizing path c with
  | zero =>
      have hbal := hc.balanced hroot
      obtain ⟨hleft, hsome, hused⟩ := hbal.first
      obtain ⟨e, he⟩ := Option.isSome_iff_exists.mp hsome
      have hlt : (if (c.key 0).isSome then 0 else 1) < 3 := by split_ifs <;> omega
      refine ⟨e, _, ⟨hlt, he, ⟨0, hc⟩, ?_, rfl⟩, ?_⟩
      · rw [hleft, hbal.leaf_child _ (by omega), toList, List.append_nil, List.append_nil]
      · rw [firstBelow, firstBelow, (hc.holes hroot).height, List.length_cons]
        omega
  | succ n ih =>
      have hbal := hc.balanced hroot
      obtain ⟨hleft, -, hused⟩ := hbal.first
      have hlt : (if (c.key 0).isSome then 0 else 1) < 4 := by split_ifs <;> omega
      obtain ⟨e, r, hat, hlen⟩ := ih (hc.child hlt hused)
      refine ⟨e, r, ?_, hlen⟩
      rw [before, hleft, List.append_nil] at hat
      exact hat

theorem nextUp_spec (hroot : Balanced H root) (hc : Chain root H h path c) :
    LeadsTo root H (before path ++ c.toList) (after path) (nextUp path) := by
  induction path generalizing h c with
  | nil => rfl
  | cons a path ih =>
      obtain ⟨p, i⟩ := a
      obtain ⟨rfl, hi, hu, hrest⟩ := hc
      have hhole := (hrest.balanced hroot).hole hi hu
      rcases hk : p.key i with - | e
      · -- nothing right of the pointer in this node
        have hr : p.rightOf i = [] := by
          have := hhole.rightOf_eq
          rw [hk] at this
          exact List.head?_eq_none_iff.mp this
        have hup : nextUp ((p, i) :: path) = nextUp path := by
          rw [nextUp, hk]
          simp
        have hlist : before ((p, i) :: path) ++ (p.getChildPtr i).toList = before path ++ p.toList := by
          rw [toList_split (p := p) hi, hr, before]
          simp only [List.append_assoc, List.append_nil]
        have := ih hrest
        rw [after, hr, List.nil_append, hup, hlist]
        exact this
      · have hlt : i < 3 := by
          by_contra hge
          have h3 : i = 3 := by omega
          subst h3
          rw [key_three] at hk
          cases hk
        have hup : nextUp ((p, i) :: path) = (p, i) :: path := by
          rw [nextUp, hk]
          simp [hlt]
        rw [after, TreeNode.rightOf_eq hlt, hk, hup]
        exact ⟨hlt, hk, ⟨h, hrest⟩, rfl, rfl⟩

theorem prevUp_firstBelow (n : ℕ) (c : TreeNode E) (path : Path E) :
    prevUp (firstBelow n c path) = prevUp path := by
  induction n generalizing c path with
  | zero => rfl
  | succ n ih =>
      rw [firstBelow, ih, prevUp]
      split_ifs with h0 hprev hprev
      · simp at hprev
      · rfl
      · exact absurd (Bool.and_eq_true_iff.mp hprev).2 h0
      · rfl

/-- From an inner node the next entry is the first one of the leaf below; the one before
it is where the cursor came from. -/
theorem lsmTreeCursorNext_inner (hroot : Balanced H root) (hc : CursorAt root H l e r path)
    (hinner : path.length < H) : ∃ e' r', r = e' :: r' ∧
      CursorAt root H (l ++ [e]) e' r' (lsmTreeCursorNext H path) ∧
      (lsmTreeCursorNext H path).length = H ∧
      lsmTreeCursorPrev H (lsmTreeCursorNext H path) = path := by
  match path, hc with
  | (p, i) :: path, hc =>
      obtain ⟨hi, hk, ⟨h, hchain⟩, rfl, rfl⟩ := hc
      have hbal := hchain.balanced hroot
      have hu := used_succ hi hk
      have hheight := (hchain.holes hroot).height
      rw [List.length_cons] at hinner
      obtain ⟨h, rfl⟩ : ∃ h', h = h' + 1 := ⟨h - 1, by omega⟩
      have hchild := hbal.child (i := i + 1) (by omega) hu
      have hnext : lsmTreeCursorNext H ((p, i) :: path) =
          firstBelow (h + 1) (p.getChildPtr (i + 1)) ((p, i + 1) :: path) := by
        rw [lsmTreeCursorNext, hchild.isNull, if_pos (by simp; omega)]
        congr 1
        omega
      obtain ⟨e', r', hat, hlen⟩ := firstBelow_spec hroot (hchain.child (by omega) hu)
      have hl : before ((p, i + 1) :: path) =
          before path ++ p.leftOf i ++ (p.getChildPtr i).toList ++ [e] := by
        rw [before, leftOf, hk]
        simp only [Option.toList_some, List.append_assoc]
      have hr : (p.getChildPtr (i + 1)).toList ++ p.rightOf (i + 1) ++ after path = e' :: r' := by
        have hlist := hat.toList
        rw [hchain.toList_key hi hk, hl] at hlist
        simpa using hlist
      rw [hl] at hat
      rw [hnext]
      refine ⟨e', r', hr, hat, hlen, ?_⟩
      -- back up to the cell the cursor left
      have hup := prevUp_firstBelow (h + 1) (p.getChildPtr (i + 1)) ((p, i + 1) :: path)
      rw [prevUp, if_pos (by simp [hk]), Nat.add_sub_cancel] at hup
      generalize firstBelow (h + 1) (p.getChildPtr (i + 1)) ((p, i + 1) :: path) = next at hlen hup
      rcases next with - | ⟨⟨q, j⟩, rest⟩
      · exact hup
      · rw [List.length_cons] at hlen
        rw [lsmTreeCursorPrev, if_neg (by simp; omega)]
        exact hup

/-- **The next entry.** -/
theorem lsmTreeCursorNext_spec (hroot : Balanced H root) (hc : CursorAt root H l e r path) :
    LeadsTo root H (l ++ [e]) r (lsmTreeCursorNext H path) := by
  rcases Nat.lt_or_ge path.length H with hinner | hleaf
  · obtain ⟨e', r', rfl, hat, -⟩ := lsmTreeCursorNext_inner hroot hc hinner
    exact hat
  -- at a leaf: the next key there, or one above
  match path, hc with
  | (p, i) :: path, hc =>
      obtain ⟨hi, hk, ⟨h, hchain⟩, rfl, rfl⟩ := hc
      have hbal := hchain.balanced hroot
      have hu := used_succ hi hk
      have hheight := (hchain.holes hroot).height
      rw [List.length_cons] at hleaf
      obtain rfl : h = 0 := by omega
      have hleft : p.leftOf (i + 1) = p.leftOf i ++ (p.getChildPtr i).toList ++ [e] := by
        rw [leftOf, hk]
        rfl
      have hc1 := hbal.leaf_child (i + 1) (by omega)
      have hc0 := hbal.leaf_child i (by omega)
      rw [hc1, hc0]
      simp only [toList, List.append_nil, List.nil_append]
      have hnext : lsmTreeCursorNext H ((p, i) :: path) =
          if 3 ≤ i + 1 || (p.key (i + 1)).isNone then nextUp path else (p, i + 1) :: path := by
        rw [lsmTreeCursorNext, if_neg (by simp; omega)]
      rcases hk' : p.key (i + 1) with - | e'
      · -- the last key of the leaf
        have hright : p.rightOf (i + 1) = [] := by
          have := (hbal.hole (by omega) hu).rightOf_eq
          rw [hk'] at this
          exact List.head?_eq_none_iff.mp this
        have hup := nextUp_spec hroot hchain
        rw [toList_split_key hi, hc0, hc1, hk, hright] at hup
        rw [hnext, hk', hright]
        simpa [toList] using hup
      · have hlt : i + 1 < 3 := by
          by_contra hge
          have h3 : i + 1 = 3 := by omega
          rw [h3, key_three] at hk'
          cases hk'
        have hcell : lsmTreeCursorNext H ((p, i) :: path) = (p, i + 1) :: path := by
          rw [hnext, hk', if_neg (by simp; omega)]
        rw [hcell, TreeNode.rightOf_eq hlt, hk']
        refine ⟨hlt, hk', ⟨0, hchain⟩, ?_, rfl⟩
        rw [hleft, hc0, hc1]
        simp [toList]

end Moves

/-! ### Seeking -/

section Seek

variable {κ : Type} [LinearOrder κ] (keyOf : E → κ)

/-- The tests on one node: the cell of the key tested last, and the result. -/
def nodeTest (k : κ) (p : TreeNode E) : ℕ × Ordering :=
  match p.key 1 with
  | none => (1, .lt)
  | some m =>
      let res := compare (keyOf m) k
      if res = .eq then (1, .eq)
      else
        let iTest := if res = .gt then 0 else 2
        match p.key iTest with
        | none => (1, res)
        | some t => (iTest, compare (keyOf t) k)

/-- `iTest + (res<0)`. -/
def iSlot (t : ℕ × Ordering) : ℕ := t.1 + if t.2 = .lt then 1 else 0

/-- The loop of `lsmTreeCursorSeek`, at a node with `n` levels below and with it. -/
def seekFrom (k : κ) : ℕ → TreeNode E → Path E → Path E × Ordering
  | 0, _, path => (path, .lt)
  | n + 1, p, path =>
      let t := nodeTest keyOf k p
      if t.2 = .eq then ((p, t.1) :: path, .eq)
      else if 0 < n && !(p.getChildPtr (iSlot t)).isNull then
        seekFrom k n (p.getChildPtr (iSlot t)) ((p, iSlot t) :: path)
      else ((p, t.1) :: path, t.2)

def lsmTreeCursorSeek (k : κ) (t : TreeRoot E) : Path E × Ordering :=
  if t.iRoot.isNull then ([], .lt) else seekFrom keyOf k t.nHeight t.iRoot []

/-- The keys of the entries increase. -/
def Increasing (l : List E) : Prop := l.Pairwise fun a b => keyOf a < keyOf b

/-- What the tests on a node say: a key was found, or the pointer to follow lies
between smaller and greater keys. -/
structure TestSpec (k : κ) (p : TreeNode E) (i : ℕ) (res : Ordering) : Prop where
  lt : i < 3
  some : (p.key i).isSome
  found : res = .eq → ∀ e ∈ p.key i, keyOf e = k
  less : res = .lt → ∀ e ∈ p.key i, keyOf e < k
  greater : res = .gt → ∀ e ∈ p.key i, k < keyOf e
  used : res ≠ .eq → p.used (iSlot (i, res)) = true
  left : res ≠ .eq → ∀ j < iSlot (i, res), ∀ e ∈ p.key j, keyOf e < k
  right : res ≠ .eq → ∀ j ≥ iSlot (i, res), ∀ e ∈ p.key j, k < keyOf e

variable {keyOf} {root p c : TreeNode E} {path : Path E} {h n H : ℕ} {k : κ}

/-- The keys in a node increase. -/
def KeysIncrease (keyOf : E → κ) (p : TreeNode E) : Prop :=
  ∀ i j, i < j → ∀ a ∈ p.key i, ∀ b ∈ p.key j, keyOf a < keyOf b

theorem key_ge (p : TreeNode E) {j : ℕ} (hj : 3 ≤ j) : p.key j = none := by
  obtain ⟨j, rfl⟩ := Nat.exists_eq_add_of_le' hj
  cases p with
  | null => rfl
  | node => rfl

/-- A key that was found. -/
theorem TestSpec.of_eq {j : ℕ} {t : E} (hj : j < 3) (ht : p.key j = Option.some t) (heq : keyOf t = k) :
    TestSpec keyOf k p j .eq := by
  refine ⟨hj, by rw [ht]; rfl, fun _ e he => ?_, nofun, nofun, fun h => absurd rfl h,
    fun h => absurd rfl h, fun h => absurd rfl h⟩
  rw [ht] at he
  exact Option.some.inj he ▸ heq

/-- The last key that is smaller: the pointer behind it is followed. -/
theorem TestSpec.of_lt {j : ℕ} {t : E} (hj : j < 3) (ht : p.key j = Option.some t)
    (hused : p.used (j + 1) = true) (hleft : ∀ i ≤ j, ∀ e ∈ p.key i, keyOf e < k)
    (hright : ∀ i > j, ∀ e ∈ p.key i, k < keyOf e) : TestSpec keyOf k p j .lt :=
  ⟨hj, by rw [ht]; rfl, nofun, fun _ => hleft j (Nat.le_refl j), nofun, fun _ => hused,
    fun _ i hi => hleft i (Nat.le_of_lt_succ hi), fun _ i hi => hright i hi⟩

/-- The first key that is greater: the pointer in front of it is followed. -/
theorem TestSpec.of_gt {j : ℕ} {t : E} (hj : j < 3) (ht : p.key j = Option.some t)
    (hused : p.used j = true) (hleft : ∀ i < j, ∀ e ∈ p.key i, keyOf e < k)
    (hright : ∀ i ≥ j, ∀ e ∈ p.key i, k < keyOf e) : TestSpec keyOf k p j .gt :=
  ⟨hj, by rw [ht]; rfl, nofun, nofun, fun _ => hright j (Nat.le_refl j), fun _ => hused,
    fun _ i hi => hleft i hi, fun _ i hi => hright i hi⟩

/-- The tests where the middle key is smaller. -/
theorem nodeTest_after {m : E} (hm : p.key 1 = some m) (hlt : keyOf m < k)
    (hinc : KeysIncrease keyOf p) :
    TestSpec keyOf k p (nodeTest keyOf k p).1 (nodeTest keyOf k p).2 := by
  have hcmp : compare (keyOf m) k = .lt := compare_lt_iff_lt.mpr hlt
  have hlast : ∀ i ≥ 3, ∀ e ∈ p.key i, k < keyOf e := fun i hi e he => by
    rw [key_ge p hi] at he
    cases he
  have hleft : ∀ i ≤ 1, ∀ e ∈ p.key i, keyOf e < k := fun i hi e he => by
    match i, hi with
    | 0, _ => exact (hinc 0 1 (by omega) e he m hm).trans hlt
    | 1, _ => exact Option.some.inj (hm.symm.trans he) ▸ hlt
  rcases h2 : p.key 2 with - | t
  · have heq : nodeTest keyOf k p = (1, .lt) := by simp [nodeTest, hm, hcmp, h2]
    rw [heq]
    refine .of_lt (by omega) hm rfl hleft fun i hi e he => ?_
    rcases eq_or_ne i 2 with rfl | hne
    · rw [h2] at he
      cases he
    · exact hlast i (by omega) e he
  · have heq : nodeTest keyOf k p = (2, compare (keyOf t) k) := by simp [nodeTest, hm, hcmp, h2]
    have hused : p.used 3 = true := by rw [used, h2]; rfl
    rw [heq]
    rcases hcmp' : compare (keyOf t) k with - | - | -
    · refine .of_lt (by omega) h2 hused (fun i hi e he => ?_) hlast
      rcases eq_or_ne i 2 with rfl | hne
      · exact Option.some.inj (h2.symm.trans he) ▸ compare_lt_iff_lt.mp hcmp'
      · exact hleft i (by omega) e he
    · exact .of_eq (by omega) h2 (compare_eq_iff_eq.mp hcmp')
    · refine .of_gt (by omega) h2 rfl (fun i hi => hleft i (by omega)) fun i hi e he => ?_
      rcases eq_or_ne i 2 with rfl | hne
      · exact Option.some.inj (h2.symm.trans he) ▸ compare_gt_iff_gt.mp hcmp'
      · exact hlast i (by omega) e he

/-- The tests where the middle key is greater. -/
theorem nodeTest_before {m : E} (hm : p.key 1 = some m) (hgt : k < keyOf m)
    (hinc : KeysIncrease keyOf p) :
    TestSpec keyOf k p (nodeTest keyOf k p).1 (nodeTest keyOf k p).2 := by
  have hcmp : compare (keyOf m) k = .gt := compare_gt_iff_gt.mpr hgt
  have hright : ∀ i ≥ 1, ∀ e ∈ p.key i, k < keyOf e := fun i hi e he => by
    rcases Nat.lt_or_ge i 3 with hlt | hge
    · match i, hlt with
      | 1, _ => exact Option.some.inj (hm.symm.trans he) ▸ hgt
      | 2, _ => exact hgt.trans (hinc 1 2 (by omega) m hm e he)
    · rw [key_ge p hge] at he
      cases he
  rcases h0 : p.key 0 with - | t
  · have heq : nodeTest keyOf k p = (1, .gt) := by simp [nodeTest, hm, hcmp, h0]
    rw [heq]
    refine .of_gt (by omega) hm rfl (fun i hi e he => ?_) hright
    obtain rfl : i = 0 := by omega
    rw [h0] at he
    cases he
  · have heq : nodeTest keyOf k p = (0, compare (keyOf t) k) := by simp [nodeTest, hm, hcmp, h0]
    have hused : p.used 0 = true := by rw [used, h0]; rfl
    rw [heq]
    rcases hcmp' : compare (keyOf t) k with - | - | -
    · refine .of_lt (by omega) h0 rfl (fun i hi e he => ?_) hright
      obtain rfl : i = 0 := by omega
      exact Option.some.inj (h0.symm.trans he) ▸ compare_lt_iff_lt.mp hcmp'
    · exact .of_eq (by omega) h0 (compare_eq_iff_eq.mp hcmp')
    · refine .of_gt (by omega) h0 hused (fun i hi => absurd hi (Nat.not_lt_zero i))
        fun i hi e he => ?_
      rcases Nat.eq_zero_or_pos i with rfl | hpos
      · exact Option.some.inj (h0.symm.trans he) ▸ compare_gt_iff_gt.mp hcmp'
      · exact hright i hpos e he

theorem nodeTest_spec (hk : (p.key 1).isSome) (hinc : KeysIncrease keyOf p) :
    TestSpec keyOf k p (nodeTest keyOf k p).1 (nodeTest keyOf k p).2 := by
  obtain ⟨m, hm⟩ := Option.isSome_iff_exists.mp hk
  rcases hcmp : compare (keyOf m) k with - | - | -
  · exact nodeTest_after hm (compare_lt_iff_lt.mp hcmp) hinc
  · have heq : nodeTest keyOf k p = (1, .eq) := by simp [nodeTest, hm, hcmp]
    rw [heq]
    exact .of_eq (by omega) hm (compare_eq_iff_eq.mp hcmp)
  · exact nodeTest_before hm (compare_gt_iff_gt.mp hcmp) hinc

theorem Increasing.of_last {l : List E} (hl : Increasing keyOf l)
    (hlast : ∀ e ∈ l.getLast?, keyOf e < k) : ∀ x ∈ l, keyOf x < k := by
  intro x hx
  obtain ⟨l', e, rfl⟩ : ∃ l' e, l = l' ++ [e] :=
    ⟨l.dropLast, l.getLast (List.ne_nil_of_mem hx), (List.dropLast_concat_getLast _).symm⟩
  have he : keyOf e < k := hlast e (by simp)
  rcases List.mem_append.mp hx with hx | hx
  · exact ((List.pairwise_append.mp hl).2.2 x hx e (by simp)).trans he
  · rw [List.mem_singleton.mp hx]
    exact he

theorem Increasing.of_head {l : List E} (hl : Increasing keyOf l)
    (hhead : ∀ e ∈ l.head?, k < keyOf e) : ∀ x ∈ l, k < keyOf x := by
  intro x hx
  cases l with
  | nil => cases hx
  | cons e l =>
      have he : k < keyOf e := hhead e rfl
      rcases List.mem_cons.mp hx with rfl | hx
      · exact he
      · exact he.trans ((List.pairwise_cons.mp hl).1 x hx)

theorem Increasing.node (hinc : Increasing keyOf root.toList) (hc : Chain root H h path p) :
    Increasing keyOf p.toList := by
  rw [hc.toList, List.append_assoc] at hinc
  exact (List.pairwise_append.mp (List.pairwise_append.mp hinc).2.1).1

theorem Increasing.keys (hinc : Increasing keyOf p.toList) : KeysIncrease keyOf p := by
  intro i j hij a ha b hb
  rcases Nat.lt_or_ge j 3 with hj | hj
  · have hi : i < 3 := by omega
    rw [toList_split_key hj, hb] at hinc
    have hmem : a ∈ p.leftOf j := by
      clear hinc hb
      induction j with
      | zero => omega
      | succ j ih =>
          rw [leftOf]
          rcases Nat.lt_succ_iff_lt_or_eq.mp hij with hlt | rfl
          · exact List.mem_append_left _ (List.mem_append_left _ (ih hlt (by omega)))
          · rw [ha]
            simp
    simp only [List.append_assoc, Option.toList_some] at hinc
    exact (List.pairwise_append.mp hinc).2.2 a hmem b (by simp)
  · rw [key_ge p hj] at hb
    cases hb

/-- The place of a key that is not in the tree: a slot of a leaf. -/
structure LeafSlot (keyOf : E → κ) (k : κ) (root : TreeNode E) (H : ℕ) (p : TreeNode E) (i : ℕ)
    (path : Path E) (res : Ordering) : Prop where
  chain : Chain root H 1 path p
  test : TestSpec keyOf k p i res
  ne : res ≠ .eq
  left : ∀ x ∈ before path ++ p.leftOf (iSlot (i, res)), keyOf x < k
  right : ∀ x ∈ p.rightOf (iSlot (i, res)) ++ after path, k < keyOf x

theorem TestSpec.slot_lt {i : ℕ} {res : Ordering} (ht : TestSpec keyOf k p i res) :
    iSlot (i, res) < 4 := by
  have := ht.lt
  unfold iSlot
  split_ifs <;> simp <;> omega

/-- What is left and right of the pointer that a search follows. -/
theorem TestSpec.sides {i : ℕ} {res : Ordering} (ht : TestSpec keyOf k p i res)
    (hinc : Increasing keyOf p.toList) (hp : Balanced (h + 1) p) (hne : res ≠ .eq) :
    (∀ x ∈ p.leftOf (iSlot (i, res)), keyOf x < k) ∧
      ∀ x ∈ p.rightOf (iSlot (i, res)), k < keyOf x := by
  have hlt := ht.slot_lt
  have hhole := hp.hole hlt (ht.used hne)
  rw [toList_split hlt, List.append_assoc] at hinc
  obtain ⟨hleft, hrest, -⟩ := List.pairwise_append.mp hinc
  obtain ⟨-, hright, -⟩ := List.pairwise_append.mp hrest
  refine ⟨Increasing.of_last hleft fun e he => ?_, Increasing.of_head hright fun e he => ?_⟩
  · rw [hhole.leftOf_eq] at he
    split_ifs at he with hpos
    · exact ht.left hne _ (by omega) e he
    · cases he
  · rw [hhole.rightOf_eq] at he
    exact ht.right hne _ (Nat.le_refl _) e he

theorem seekFrom_spec (hroot : Balanced H root) (hinc : Increasing keyOf root.toList)
    (hc : Chain root H (n + 1) path p) (hleft : ∀ x ∈ before path, keyOf x < k)
    (hright : ∀ x ∈ after path, k < keyOf x) :
    (∃ l e r, CursorAt root H l e r (seekFrom keyOf k (n + 1) p path).1 ∧ keyOf e = k ∧
        (seekFrom keyOf k (n + 1) p path).2 = .eq) ∨
      ∃ q i rest, (seekFrom keyOf k (n + 1) p path).1 = (q, i) :: rest ∧
        LeafSlot keyOf k root H q i rest (seekFrom keyOf k (n + 1) p path).2 := by
  induction n generalizing p path with
  | zero =>
      have hbal := hc.balanced hroot
      have ht := nodeTest_spec (k := k) hbal.1 (hinc.node hc).keys
      rw [seekFrom]
      generalize nodeTest keyOf k p = t at ht ⊢
      obtain ⟨i, res⟩ := t
      by_cases heq : res = .eq
      · obtain ⟨e, he⟩ := Option.isSome_iff_exists.mp ht.some
        simp only [if_pos heq]
        exact .inl ⟨_, e, _, ⟨ht.lt, he, ⟨0, hc⟩, rfl, rfl⟩, ht.found heq e he, trivial⟩
      · simp only [if_neg heq]
        obtain ⟨hl, hr⟩ := ht.sides (hinc.node hc) hbal heq
        refine .inr ⟨p, i, path, rfl, hc, ht, heq, fun x hx => ?_, fun x hx => ?_⟩
        · exact (List.mem_append.mp hx).elim (hleft x) (hl x)
        · exact (List.mem_append.mp hx).elim (hr x) (hright x)
  | succ n ih =>
      have hbal := hc.balanced hroot
      have ht := nodeTest_spec (k := k) hbal.1 (hinc.node hc).keys
      rw [seekFrom]
      generalize nodeTest keyOf k p = t at ht ⊢
      obtain ⟨i, res⟩ := t
      by_cases heq : res = .eq
      · obtain ⟨e, he⟩ := Option.isSome_iff_exists.mp ht.some
        simp only [if_pos heq]
        exact .inl ⟨_, e, _, ⟨ht.lt, he, ⟨n + 1, hc⟩, rfl, rfl⟩, ht.found heq e he, trivial⟩
      · have hlt : iSlot (i, res) < 4 := ht.slot_lt
        have hchild := hbal.child hlt (ht.used heq)
        obtain ⟨hl, hr⟩ := ht.sides (hinc.node hc) hbal heq
        simp only [if_neg heq, hchild.isNull, Nat.succ_pos, decide_true, Bool.not_false,
          Bool.and_self, if_true]
        refine ih (hc.child hlt (ht.used heq)) (fun x hx => ?_) (fun x hx => ?_)
        · exact (List.mem_append.mp hx).elim (hleft x) (hl x)
        · exact (List.mem_append.mp hx).elim (hr x) (hright x)

end Seek

end TreeNode

end Lsm

end MoVeBench
