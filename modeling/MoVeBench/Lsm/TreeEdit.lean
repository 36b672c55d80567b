/-
MoVeBench/Lsm/TreeEdit.lean

Changes to the in-memory tree at a cursor: a key is overwritten, inserted next to the
cursor, or removed.
-/
import MoVeBench.Lsm.TreeCursor

namespace MoVeBench

namespace Lsm

namespace TreeNode

variable {E : Type}

/-- `treeOverwriteKey`. -/
def treeOverwriteKey (iKey : E) : Path E → TreeNode E
  | [] => null
  | (p, i) :: path => treeUpdatePtr path (p.copy.setKey i (some iKey))

/-- The key of a cursor. -/
def csrKeyPtr : Path E → Option E
  | [] => none
  | (p, i) :: _ => p.key i

/-- `treeDeleteEntry` at a cursor, without a new child. -/
def treeDeleteAt (nHeight : ℕ) : Path E → TreeRoot E
  | [] => ⟨null, nHeight⟩
  | (p, i) :: path => treeDeleteEntry nHeight p i null path

section Overwrite

variable {root p q : TreeNode E} {path : Path E} {i h H : ℕ} {l r : List E} {e : E}

/-- `q` is `p` with another key in the cell `i`. -/
structure Overwritten (p : TreeNode E) (i : ℕ) (e : E) (q : TreeNode E) : Prop where
  key : q.key i = some e
  other : ∀ j, j ≠ i → q.key j = p.key j
  child : ∀ j < 4, q.getChildPtr j = p.getChildPtr j

theorem copy_setKey (hp : p ≠ null) (hi : i < 3) (e : E) :
    Overwritten p i e (p.copy.setKey i (some e)) := by
  cases p with
  | null => exact absurd rfl hp
  | node k0 k1 k2 c0 c1 c2 c3 v w =>
      match i, hi with
      | 0, _ | 1, _ | 2, _ =>
          refine ⟨rfl, fun j hj => ?_, fun j hj => ?_⟩
          · match j with
            | 0 | 1 | 2 => first | rfl | exact absurd rfl hj
            | _ + 3 => rfl
          · match j, hj with
            | 0, _ | 1, _ | 2, _ | 3, _ => rfl

theorem Overwritten.leftOf (hq : Overwritten p i e q) {j : ℕ} (hj : j ≤ i) (hi : i < 4) :
    q.leftOf j = p.leftOf j := by
  induction j with
  | zero => rfl
  | succ j ih =>
      rw [TreeNode.leftOf, TreeNode.leftOf, ih (by omega), hq.other j (by omega),
        hq.child j (by omega)]

theorem Overwritten.rightOf (hq : Overwritten p i e q) (hi : i < 3) :
    q.rightOf (i + 1) = p.rightOf (i + 1) := by
  match i, hi with
  | 0, _ =>
      rw [TreeNode.rightOf, TreeNode.rightOf, hq.other 1 (by omega), hq.other 2 (by omega),
        hq.child 2 (by omega), hq.child 3 (by omega)]
  | 1, _ =>
      rw [TreeNode.rightOf, TreeNode.rightOf, hq.other 2 (by omega), hq.child 3 (by omega)]
  | 2, _ => rfl

theorem Overwritten.isSome (hq : Overwritten p i e q) (hk : (p.key i).isSome) (j : ℕ) :
    (q.key j).isSome = (p.key j).isSome := by
  by_cases hj : j = i
  · rw [hj, hq.key, hk]
    rfl
  · rw [hq.other j hj]

theorem Overwritten.balanced (hq : Overwritten p i e q) (hk : (p.key i).isSome)
    (hp : Balanced (h + 1) p) : Balanced (h + 1) q := by
  refine ⟨by rw [hq.isSome hk]; exact hp.1, fun j hj => ?_⟩
  have hused : q.used j = p.used j := by
    match j, hj with
    | 0, _ => exact hq.isSome hk 0
    | 1, _ | 2, _ => rfl
    | 3, _ => exact hq.isSome hk 2
  rw [hused, hq.child j hj]
  exact hp.2 j hj

/-- **A key is overwritten.**  The new node is where the old one was. -/
theorem treeOverwriteKey_spec (e' : E) (hroot : Balanced H root)
    (hc : CursorAt root H l e r path) :
    (treeOverwriteKey e' path).toList = l ++ e' :: r ∧ Balanced H (treeOverwriteKey e' path) ∧
      ∃ path', CursorAt (treeOverwriteKey e' path) H l e' r path' ∧ path'.length = path.length := by
  match path, hc with
  | (p, i) :: path, hc =>
      obtain ⟨hi, hk, ⟨h, hchain⟩, hl, hr⟩ := hc
      have hp := hchain.balanced hroot
      have hholes := hchain.holes hroot
      have hq := copy_setKey hp.ne_null hi e'
      have hbal := hq.balanced (by rw [hk]; rfl) hp
      obtain ⟨path', hchain', hb, ha⟩ := treeUpdatePtr_chain hholes hbal
      have hat : CursorAt (treeOverwriteKey e' ((p, i) :: path)) H l e' r
          ((p.copy.setKey i (some e'), i) :: path') := by
        refine ⟨hi, hq.key, ⟨h, hchain'⟩, ?_, ?_⟩
        · rw [hl, hb, hq.leftOf (Nat.le_refl _) (by omega), hq.child i (by omega)]
        · rw [hr, ha, hq.rightOf hi, hq.child (i + 1) (by omega)]
      have hbal' := (treeUpdatePtr_spec hholes hbal).2
      refine ⟨hat.toList, hbal', _, hat, ?_⟩
      have h1 := hholes.height
      have h2 := (hchain'.holes hbal').height
      rw [List.length_cons, List.length_cons]
      omega

/-- **The key of a leaf is removed.** -/
theorem treeDeleteAt_spec (hroot : Balanced H root) (hc : CursorAt root H l e r path)
    (hleaf : path.length = H) :
    (treeDeleteAt H path).iRoot.toList = l ++ r ∧
      Balanced (treeDeleteAt H path).nHeight (treeDeleteAt H path).iRoot := by
  match path, hc with
  | (p, i) :: path, hc =>
      obtain ⟨hi, hk, ⟨h, hchain⟩, hl, hr⟩ := hc
      have hp := hchain.balanced hroot
      have hholes := hchain.holes hroot
      have hh : h = 0 := by
        have := hholes.height
        rw [List.length_cons] at hleaf
        omega
      subst hh
      obtain ⟨hlist, hbal⟩ := treeDeleteEntry_spec (hp.gap hi (by rw [hk]; rfl)) hholes
        (show Balanced 0 (null : TreeNode E) from rfl)
      refine ⟨?_, hbal⟩
      rw [treeDeleteAt, hlist, hl, hr, hp.leaf_child i (by omega), hp.leaf_child (i + 1) (by omega)]
      simp only [toList, List.append_nil, List.nil_append, List.append_assoc]

end Overwrite

/-! ### Inserting and removing by key -/

section ByKey

variable {κ : Type} [LinearOrder κ] (keyOf : E → κ)

/-- The key goes to the slot `iSlot` of the leaf of the cursor. -/
def treeInsertAt (nHeight : ℕ) (iKey : E) : Path E → ℕ → TreeRoot E
  | [], _ => ⟨null, nHeight⟩
  | [(p, _)], iSlot => treeInsert nHeight [(p, iSlot)] null (some iKey) null
  | (p, _) :: path, iSlot => treeInsertLeaf nHeight p iSlot path (some iKey)

/-- One turn of the loop of `lsmTreeDelete`, where there is an entry to delete.  `load`
is the key that `treeShmkey` reads. -/
def treeDeleteCurrent (load : E → κ) (t : TreeRoot E) (pCsr : Path E) : TreeRoot E :=
  if pCsr.length = t.nHeight then treeDeleteAt t.nHeight pCsr
  else
    let pNext := lsmTreeCursorNext t.nHeight pCsr
    match csrKeyPtr pNext with
    | none => t
    | some iKey =>
        -- the entry is overwritten with the next one, which is then deleted
        let iRoot := treeOverwriteKey iKey (lsmTreeCursorPrev t.nHeight pNext)
        let pSeek := (lsmTreeCursorSeek keyOf (load iKey) ⟨iRoot, t.nHeight⟩).1
        treeDeleteAt t.nHeight (lsmTreeCursorNext t.nHeight pSeek)

variable {keyOf} {root p : TreeNode E} {path : Path E} {i h n H : ℕ} {l r : List E} {e : E} {k : κ}
  {res : Ordering}

theorem treeInsertAt_spec (hroot : Balanced H root) (hs : LeafSlot keyOf k root H p i path res) :
    (treeInsertAt H e ((p, i) :: path) (iSlot (i, res))).iRoot.toList =
        (before path ++ p.leftOf (iSlot (i, res))) ++ e ::
          (p.rightOf (iSlot (i, res)) ++ after path) ∧
      Balanced (treeInsertAt H e ((p, i) :: path) (iSlot (i, res))).nHeight
        (treeInsertAt H e ((p, i) :: path) (iSlot (i, res))).iRoot := by
  have hp := hs.chain.balanced hroot
  have hlt := hs.test.slot_lt
  have hused := hs.test.used hs.ne
  have hins : treeInsertAt H e ((p, i) :: path) (iSlot (i, res)) =
      treeInsert H ((p, iSlot (i, res)) :: path) null (some e) null := by
    cases path with
    | nil => rfl
    | cons a path => exact treeInsertLeaf_eq hp hused hlt (List.cons_ne_nil _ _)
  obtain ⟨hlist, hbal⟩ := treeInsert_spec
    (show Holes 0 ((p, iSlot (i, res)) :: path) H from ⟨hp.hole hlt hused, hs.chain.holes hroot⟩)
    (List.cons_ne_nil _ _) (show (some e).isSome from rfl)
    (show Balanced 0 (null : TreeNode E) from rfl) (show Balanced 0 (null : TreeNode E) from rfl)
    fun _ a ha => by
      cases ha
      exact hp.leaf_child _ hlt
  rw [hins]
  refine ⟨?_, hbal⟩
  rw [hlist, before, after]
  simp [toList]

/-- The entry that the cursor stops at is the last smaller or the first greater one. -/
theorem LeafSlot.cursorAt (hroot : Balanced H root) (hs : LeafSlot keyOf k root H p i path res) :
    ∃ l e r, CursorAt root H l e r ((p, i) :: path) ∧
      (res = .lt ∧ before path ++ p.leftOf (iSlot (i, res)) = l ++ [e] ∧
          p.rightOf (iSlot (i, res)) ++ after path = r ∨
        res = .gt ∧ before path ++ p.leftOf (iSlot (i, res)) = l ∧
          p.rightOf (iSlot (i, res)) ++ after path = e :: r) := by
  obtain ⟨e, he⟩ := Option.isSome_iff_exists.mp hs.test.some
  have hp := hs.chain.balanced hroot
  have hi := hs.test.lt
  have h0 := hp.leaf_child i (by omega)
  have h1 := hp.leaf_child (i + 1) (by omega)
  refine ⟨_, e, _, ⟨hi, he, ⟨0, hs.chain⟩, rfl, rfl⟩, ?_⟩
  rw [h0, h1]
  rcases res with - | - | -
  · refine .inl ⟨rfl, ?_, ?_⟩
    · show before path ++ p.leftOf (i + 1) = _
      rw [leftOf, he, h0]
      simp [toList]
    · show p.rightOf (i + 1) ++ after path = _
      simp [toList]
  · exact absurd rfl hs.ne
  · refine .inr ⟨rfl, ?_, ?_⟩
    · show before path ++ p.leftOf i = _
      simp [toList]
    · show p.rightOf i ++ after path = _
      rw [rightOf_eq hi, he, h1]
      simp [toList]

/-- What a search in a tree that is not empty finds. -/
theorem lsmTreeCursorSeek_spec (hroot : Balanced H root) (hne : root ≠ null)
    (hinc : Increasing keyOf root.toList) :
    (∃ l e r, CursorAt root H l e r (lsmTreeCursorSeek keyOf k ⟨root, H⟩).1 ∧ keyOf e = k ∧
        (lsmTreeCursorSeek keyOf k ⟨root, H⟩).2 = .eq) ∨
      ∃ p i path, (lsmTreeCursorSeek keyOf k ⟨root, H⟩).1 = (p, i) :: path ∧
        LeafSlot keyOf k root H p i path (lsmTreeCursorSeek keyOf k ⟨root, H⟩).2 := by
  cases H with
  | zero => exact absurd hroot hne
  | succ H =>
      have heq : lsmTreeCursorSeek keyOf k ⟨root, H + 1⟩ = seekFrom keyOf k (H + 1) root [] := by
        rw [lsmTreeCursorSeek, if_neg (by rw [hroot.isNull]; exact Bool.false_ne_true)]
      rw [heq]
      exact seekFrom_spec hroot hinc ⟨rfl, rfl⟩ nofun nofun

/-! #### Seeking a key that is there twice -/

variable (keyOf) in
theorem nodeTest_slot {s : ℕ} (hk : (p.key 1).isSome) (hs : s < 4) (hu : p.used s = true)
    (hl : ∀ j < s, ∀ e ∈ p.key j, keyOf e < k) (hr : ∀ j ≥ s, ∀ e ∈ p.key j, k < keyOf e) :
    (nodeTest keyOf k p).2 ≠ .eq ∧ iSlot (nodeTest keyOf k p) = s := by
  obtain ⟨m, hm⟩ := Option.isSome_iff_exists.mp hk
  match s, hs with
  | 0, _ =>
      obtain ⟨t, ht⟩ := Option.isSome_iff_exists.mp hu
      have h1 := compare_gt_iff_gt.mpr (hr 1 (by omega) m hm)
      have h0 := compare_gt_iff_gt.mpr (hr 0 (by omega) t ht)
      simp [nodeTest, hm, ht, h1, h0, iSlot]
  | 1, _ =>
      have h1 := compare_gt_iff_gt.mpr (hr 1 (by omega) m hm)
      rcases ht : p.key 0 with - | t
      · simp [nodeTest, hm, ht, h1, iSlot]
      · have h0 := compare_lt_iff_lt.mpr (hl 0 (by omega) t ht)
        simp [nodeTest, hm, ht, h1, h0, iSlot]
  | 2, _ =>
      have h1 := compare_lt_iff_lt.mpr (hl 1 (by omega) m hm)
      rcases ht : p.key 2 with - | t
      · simp [nodeTest, hm, ht, h1, iSlot]
      · have h2 := compare_gt_iff_gt.mpr (hr 2 (by omega) t ht)
        simp [nodeTest, hm, ht, h1, h2, iSlot]
  | 3, _ =>
      obtain ⟨t, ht⟩ := Option.isSome_iff_exists.mp hu
      have h1 := compare_lt_iff_lt.mpr (hl 1 (by omega) m hm)
      have h2 := compare_lt_iff_lt.mpr (hl 2 (by omega) t ht)
      simp [nodeTest, hm, ht, h1, h2, iSlot]

variable (keyOf) in
theorem nodeTest_found (hk : (p.key 1).isSome) (hi : i < 3) (he : p.key i = some e)
    (heq : keyOf e = k) (hl : ∀ j < i, ∀ e ∈ p.key j, keyOf e < k)
    (hr : ∀ j > i, ∀ e ∈ p.key j, k < keyOf e) : nodeTest keyOf k p = (i, .eq) := by
  obtain ⟨m, hm⟩ := Option.isSome_iff_exists.mp hk
  have hcmp := compare_eq_iff_eq.mpr heq
  match i, hi with
  | 0, _ =>
      have h1 := compare_gt_iff_gt.mpr (hr 1 (by omega) m hm)
      simp [nodeTest, hm, he, h1, hcmp]
  | 1, _ => simp [nodeTest, he, hcmp]
  | 2, _ =>
      have h1 := compare_lt_iff_lt.mpr (hl 1 (by omega) m hm)
      simp [nodeTest, hm, he, h1, hcmp]

theorem mem_leftOf {j s : ℕ} (hj : j < s) (he : p.key j = some e) : e ∈ p.leftOf s := by
  induction s with
  | zero => omega
  | succ s ih =>
      rw [leftOf]
      rcases Nat.lt_succ_iff_lt_or_eq.mp hj with hlt | rfl
      · exact List.mem_append_left _ (List.mem_append_left _ (ih hlt))
      · rw [he]
        simp

theorem mem_rightOf {j s : ℕ} (hj : s ≤ j) (he : p.key j = some e) : e ∈ p.rightOf s := by
  rcases Nat.lt_or_ge j 3 with hlt | hge
  · match j, hlt, s, hj with
    | 0, _, 0, _ | 1, _, 0, _ | 1, _, 1, _ | 2, _, 0, _ | 2, _, 1, _ | 2, _, 2, _ =>
        simp [rightOf, he]
  · rw [key_ge p hge] at he
    cases he

variable (keyOf) in
/-- A search follows a path between smaller and greater keys. -/
theorem seekFrom_follows (hroot : Balanced H root) (hc : Chain root H (n + 1) path p)
    (hl : ∀ x ∈ before path, keyOf x < k) (hr : ∀ x ∈ after path, k < keyOf x) :
    seekFrom keyOf k H root [] = seekFrom keyOf k (n + 1) p path := by
  induction path generalizing n p with
  | nil =>
      obtain ⟨rfl, rfl⟩ := hc
      rfl
  | cons a path ih =>
      obtain ⟨q, s⟩ := a
      obtain ⟨rfl, hs, hu, hrest⟩ := hc
      have hbal := hrest.balanced hroot
      have hlq : ∀ x ∈ before path, keyOf x < k := fun x hx => hl x (List.mem_append_left _ hx)
      have hrq : ∀ x ∈ after path, k < keyOf x := fun x hx => hr x (List.mem_append_right _ hx)
      obtain ⟨hne, hslot⟩ := nodeTest_slot keyOf (k := k) hbal.1 hs hu
        (fun j hj e he => hl e (List.mem_append_right _ (mem_leftOf hj he)))
        (fun j hj e he => hr e (List.mem_append_left _ (mem_rightOf hj he)))
      have hchild := hbal.child hs hu
      rw [ih hrest hlq hrq]
      conv_lhs => rw [seekFrom]
      simp only [if_neg hne, hslot, hchild.isNull, Nat.succ_pos, decide_true, Bool.not_false,
        Bool.and_self, if_true]

theorem Balanced.toList_ne_nil (hp : Balanced (h + 1) p) : p.toList ≠ [] := by
  obtain ⟨m, hm⟩ := Option.isSome_iff_exists.mp hp.1
  intro hnil
  have hmem : m ∈ p.toList := by
    rw [toList_split (i := 1) (by omega)]
    exact List.mem_append_right _ (mem_rightOf (Nat.le_refl _) hm)
  rw [hnil] at hmem
  cases hmem

/-- A search for a key that an inner node and the first leaf after it hold stops at the
inner node. -/
theorem lsmTreeCursorSeek_inner {e' : E} (hroot : Balanced H root)
    (hc : CursorAt root H l e (e' :: r) path) (hinner : path.length < H)
    (hl : ∀ x ∈ l, keyOf x < keyOf e) (hr : ∀ x ∈ r, keyOf e < keyOf x) :
    (lsmTreeCursorSeek keyOf (keyOf e) ⟨root, H⟩).1 = path := by
  match path, hc with
  | (p, i) :: path, hc =>
      obtain ⟨hi, hk, ⟨h, hchain⟩, rfl, hright⟩ := hc
      have hbal := hchain.balanced hroot
      have hheight := (hchain.holes hroot).height
      rw [List.length_cons] at hinner
      obtain ⟨h, rfl⟩ : ∃ h', h = h' + 1 := ⟨h - 1, by omega⟩
      have hu := used_succ hi hk
      -- the leaf with the second copy is below the child right of the key
      obtain ⟨x, below, hbelow⟩ := List.exists_cons_of_ne_nil
        (hbal.child (i := i + 1) (by omega) hu).toList_ne_nil
      rw [hbelow] at hright
      obtain ⟨rfl, rfl⟩ : e' = x ∧ r = below ++ p.rightOf (i + 1) ++ after path := by
        simpa using hright
      have hfollow := seekFrom_follows keyOf (k := keyOf e) hroot hchain
        (fun x hx => hl x (by simp [hx])) (fun x hx => hr x (by simp [hx]))
      have hfound := nodeTest_found keyOf hbal.1 hi hk rfl
        (fun j hj x hx => hl x (by simp [mem_leftOf hj hx]))
        (fun j hj x hx => hr x (by simp [mem_rightOf (Nat.succ_le_of_lt hj) hx]))
      have hnull : root.isNull = false := by
        obtain ⟨H', rfl⟩ : ∃ H', H = H' + 1 := ⟨H - 1, by omega⟩
        exact hroot.isNull
      rw [lsmTreeCursorSeek, if_neg (by rw [hnull]; exact Bool.false_ne_true), hfollow, seekFrom,
        hfound]
      rfl

/-- **One entry is deleted.** -/
theorem treeDeleteCurrent_spec {load : E → κ} (hroot : Balanced H root)
    (hinc : Increasing keyOf root.toList) (hload : ∀ x ∈ root.toList, load x = keyOf x)
    (hc : CursorAt root H l e r path) :
    (treeDeleteCurrent keyOf load ⟨root, H⟩ path).iRoot.toList = l ++ r ∧
      Balanced (treeDeleteCurrent keyOf load ⟨root, H⟩ path).nHeight
        (treeDeleteCurrent keyOf load ⟨root, H⟩ path).iRoot := by
  have hlist := hc.toList
  have hlen : path.length ≤ H := by
    match path, hc with
    | (p, i) :: path, ⟨_, _, ⟨h, hchain⟩, _, _⟩ =>
        have := (hchain.holes hroot).height
        rw [List.length_cons]
        omega
  by_cases hleaf : path.length = H
  · -- on a leaf the entry is deleted where it is
    rw [treeDeleteCurrent, if_pos hleaf]
    exact treeDeleteAt_spec hroot hc hleaf
  · have hinner : path.length < H := by omega
    obtain ⟨N, r, rfl, hat, -, hprev⟩ := lsmTreeCursorNext_inner hroot hc hinner
    have hkey : csrKeyPtr (lsmTreeCursorNext H path) = some N := by
      generalize lsmTreeCursorNext H path = next at hat
      match next, hat with
      | (q, j) :: _, hat => exact hat.2.1
    -- its place is taken by the next entry, which is then there twice
    obtain ⟨-, hbal', path', hat', hlen'⟩ := treeOverwriteKey_spec N hroot hc
    rw [hlist] at hinc
    obtain ⟨-, hright, hcross⟩ := List.pairwise_append.mp hinc
    have hl : ∀ x ∈ l, keyOf x < keyOf N := fun x hx => hcross x hx N (by simp)
    have hr : ∀ x ∈ r, keyOf N < keyOf x :=
      (List.pairwise_cons.mp (List.pairwise_cons.mp hright).2).1
    -- the search stops at the upper copy, and the lower one is next to it
    have hseek : (lsmTreeCursorSeek keyOf (keyOf N) ⟨treeOverwriteKey N path, H⟩).1 = path' :=
      lsmTreeCursorSeek_inner hbal' hat' (by omega) hl hr
    have hloadN : load N = keyOf N := hload N (by rw [hlist]; simp)
    obtain ⟨N', r', hcons, hat'', hlen'', -⟩ := lsmTreeCursorNext_inner hbal' hat' (by omega)
    obtain ⟨rfl, rfl⟩ := List.cons.inj hcons
    have heq : treeDeleteCurrent keyOf load ⟨root, H⟩ path =
        treeDeleteAt H (lsmTreeCursorNext H path') := by
      rw [treeDeleteCurrent, if_neg hleaf]
      simp only [hkey, hprev, hloadN, hseek]
    obtain ⟨hdel, hbal''⟩ := treeDeleteAt_spec hbal' hat'' hlen''
    rw [heq]
    refine ⟨?_, hbal''⟩
    rw [hdel, List.append_assoc]
    rfl

end ByKey

end TreeNode

end Lsm

end MoVeBench
