/-
MoVeBench/Lsm/TreeWalk.lean

Walks over the in-memory tree with a cursor (`lsmTreeCursorSeek`, `lsmTreeCursorNext` and
`lsmTreeCursorPrev` of `lsm_tree.c`).

A cursor stands at an entry of the tree in key order, or it is invalid (`AtIndex`).  A search
leaves it at the entry that was asked for or at a neighbour of its place
(`lsmTreeCursorSeek_adjacent`); each move takes it to the neighbour of its entry
(`cursorMove_spec`), so that a walk visits the entries one by one in both directions, and
ends past the last or before the first of them (`lsmTreeCursor_walk`).
-/
import MoVeBench.Lsm.TreeEdit

namespace MoVeBench

namespace Lsm

namespace TreeNode

variable {E : Type}

/-! ### The previous entry -/

/-- The cursor is at the last entry before `r`, or invalid where there is none. -/
def LeadsBack (root : TreeNode E) (H : ℕ) (l r : List E) (path : Path E) : Prop :=
  (l = [] → path = []) ∧ ∀ l' e, l = l' ++ [e] → CursorAt root H l' e r path

section Prev

variable {root p c : TreeNode E} {path : Path E} {i h n H : ℕ} {l r : List E} {e : E}

theorem LeadsBack.of_cursorAt {l' : List E} (hl : l = l' ++ [e])
    (hc : CursorAt root H l' e r path) : LeadsBack root H l r path := by
  refine ⟨fun hnil => ?_, fun m x hm => ?_⟩
  · rw [hnil] at hl
    exact absurd hl.symm (by simp)
  · rw [hl] at hm
    obtain ⟨rfl, heq⟩ := List.append_inj' hm rfl
    rw [← List.singleton_inj.mp heq]
    exact hc

/-- The last cell of a node, and the pointer behind it. -/
theorem Balanced.last (hp : Balanced (h + 1) p) :
    (p.key (1 + if (p.key 2).isSome then 1 else 0)).isSome ∧
      p.used (1 + (if (p.key 2).isSome then 1 else 0) + 1) = true ∧
      p.rightOf (1 + (if (p.key 2).isSome then 1 else 0) + 1) = [] := by
  split_ifs with h2
  · exact ⟨h2, h2, rfl⟩
  · have hk2 : p.key 2 = none := Option.not_isSome_iff_eq_none.mp h2
    have hc3 : p.getChildPtr 3 = null := by simpa [used, hk2] using hp.2 3 (by omega)
    refine ⟨hp.1, rfl, ?_⟩
    simp [rightOf, hk2, hc3, toList]

/-- **Down to the last entry** below a node. -/
theorem lastBelow_spec (hroot : Balanced H root) (hc : Chain root H (n + 1) path c) :
    ∃ l e, CursorAt root H l e (after path) (lastBelow (n + 1) c path) := by
  induction n generalizing path c with
  | zero =>
      have hbal := hc.balanced hroot
      obtain ⟨hsome, -, hright⟩ := hbal.last
      obtain ⟨e, he⟩ := Option.isSome_iff_exists.mp hsome
      have hlt : 1 + (if (c.key 2).isSome then 1 else 0) < 3 := by split_ifs <;> omega
      have hcell : lastBelow (0 + 1) c path =
          (c, 1 + if (c.key 2).isSome then 1 else 0) :: path := by
        simp [lastBelow]
      rw [hcell]
      refine ⟨_, e, ⟨hlt, he, ⟨0, hc⟩, rfl, ?_⟩⟩
      rw [hright, hbal.leaf_child _ (by omega), toList, List.nil_append, List.nil_append]
  | succ n ih =>
      have hbal := hc.balanced hroot
      obtain ⟨-, hused, hright⟩ := hbal.last
      have hlt : 1 + (if (c.key 2).isSome then 1 else 0) + 1 < 4 := by split_ifs <;> omega
      obtain ⟨l, e, hat⟩ := ih (hc.child hlt hused)
      refine ⟨l, e, ?_⟩
      rw [after, hright, List.nil_append] at hat
      exact hat

/-- **Up to the entry** in front of a pointer. -/
theorem prevUp_spec (hroot : Balanced H root) (hc : Chain root H h path c) :
    LeadsBack root H (before path) (c.toList ++ after path) (prevUp path) := by
  induction path generalizing h c with
  | nil => exact ⟨fun _ => rfl, fun l' e hl => absurd hl (by simp [before])⟩
  | cons a path ih =>
      obtain ⟨p, i⟩ := a
      obtain ⟨rfl, hi, hu, hrest⟩ := hc
      have hhole := (hrest.balanced hroot).hole hi hu
      have hleft := hhole.leftOf_eq
      by_cases hkey : 0 < i ∧ (p.key (i - 1)).isSome
      · obtain ⟨hpos, hsome⟩ := hkey
        obtain ⟨e, he⟩ := Option.isSome_iff_exists.mp hsome
        obtain ⟨j, rfl⟩ : ∃ j, i = j + 1 := ⟨i - 1, by omega⟩
        rw [Nat.add_sub_cancel] at he
        have hup : prevUp ((p, j + 1) :: path) = (p, j) :: path := by
          rw [prevUp, Nat.add_sub_cancel, he]
          exact if_pos (by simp)
        have hlist : before ((p, j + 1) :: path) =
            (before path ++ p.leftOf j ++ (p.getChildPtr j).toList) ++ [e] := by
          rw [before, leftOf, he]
          simp only [Option.toList_some, List.append_assoc]
        rw [hup]
        refine .of_cursorAt hlist ⟨by omega, he, ⟨h, hrest⟩, rfl, ?_⟩
        rw [after, List.append_assoc]
      · -- nothing left of the pointer in this node
        have hup : prevUp ((p, i) :: path) = prevUp path := by
          rw [prevUp]
          refine if_neg fun htrue => hkey ?_
          obtain ⟨hpos, hsome⟩ := Bool.and_eq_true_iff.mp htrue
          exact ⟨of_decide_eq_true hpos, hsome⟩
        have hnil : p.leftOf i = [] := by
          refine List.getLast?_eq_none_iff.mp (hleft.trans ?_)
          split_ifs with hpos
          · exact Option.not_isSome_iff_eq_none.mp fun hsome => hkey ⟨hpos, hsome⟩
          · rfl
        have hlist : (p.getChildPtr i).toList ++ after ((p, i) :: path) =
            p.toList ++ after path := by
          rw [toList_split (p := p) hi, hnil, after, List.nil_append, List.append_assoc]
        rw [hup, before, hnil, List.append_nil, hlist]
        exact ih hrest

/-- **The previous entry.** -/
theorem lsmTreeCursorPrev_spec (hroot : Balanced H root) (hc : CursorAt root H l e r path) :
    LeadsBack root H l (e :: r) (lsmTreeCursorPrev H path) := by
  match path, hc with
  | (p, i) :: path, hc =>
      obtain ⟨hi, hk, ⟨h, hchain⟩, rfl, rfl⟩ := hc
      have hbal := hchain.balanced hroot
      have hheight := (hchain.holes hroot).height
      have hlist : (p.getChildPtr i).toList ++ after ((p, i) :: path) = (p.getChildPtr i).toList ++
          e :: ((p.getChildPtr (i + 1)).toList ++ p.rightOf (i + 1) ++ after path) := by
        rw [after, rightOf_eq hi, hk]
        simp only [Option.toList_some, List.append_assoc, List.cons_append, List.nil_append]
      have hafter := List.append_cancel_left hlist
      have hu : p.used i = true := by
        obtain rfl | rfl | rfl : i = 0 ∨ i = 1 ∨ i = 2 := by omega
        · rw [used, hk]
          rfl
        · rfl
        · rfl
      have hbelow : Chain root H h ((p, i) :: path) (p.getChildPtr i) :=
        hchain.child (by omega) hu
      rcases Nat.lt_or_ge (path.length + 1) H with hinner | hleaf
      · -- the last entry below the child in front of the key
        obtain ⟨h, rfl⟩ : ∃ h', h = h' + 1 := ⟨h - 1, by omega⟩
        have hchild := hbal.child (by omega) hu
        have hprev : lsmTreeCursorPrev H ((p, i) :: path) =
            lastBelow (h + 1) (p.getChildPtr i) ((p, i) :: path) := by
          rw [lsmTreeCursorPrev, hchild.isNull, if_pos (by simp; omega)]
          congr 1
          omega
        obtain ⟨l', e', hat⟩ := lastBelow_spec hroot hbelow
        have hl : before path ++ p.leftOf i ++ (p.getChildPtr i).toList = l' ++ [e'] := by
          have htree := hat.toList
          rw [hchain.toList_key hi hk, hafter] at htree
          exact List.append_cancel_right (htree.trans (List.append_cons l' e' _))
        rw [hprev, ← hafter]
        exact .of_cursorAt hl hat
      · -- at a leaf there is no child
        obtain rfl : h = 0 := by omega
        have hnull := hbal.leaf_child i (by omega)
        have hprev : lsmTreeCursorPrev H ((p, i) :: path) = prevUp ((p, i) :: path) := by
          rw [lsmTreeCursorPrev]
          exact if_neg (by simp; omega)
        have hback := prevUp_spec hroot hbelow
        rw [before, hafter, hnull, toList, List.nil_append] at hback
        rw [hprev, hnull, toList, List.append_nil]
        exact hback

end Prev

/-! ### Walks -/

/-- `lsmTreeCursorNext` or `lsmTreeCursorPrev`. -/
inductive CursorMove
  | next
  | prev
deriving DecidableEq

def cursorMove (nHeight : ℕ) : CursorMove → Path E → Path E
  | .next, pCsr => lsmTreeCursorNext nHeight pCsr
  | .prev, pCsr => lsmTreeCursorPrev nHeight pCsr

/-- Where a move leads among `n` entries in key order; `none` is the invalid state. -/
def indexMove (n : ℕ) : CursorMove → Option ℕ → Option ℕ
  | _, none => none
  | .next, some i => if i + 1 < n then some (i + 1) else none
  | .prev, some i => if 0 < i then some (i - 1) else none

/-- The cursor is at entry `i` in key order, or it is invalid. -/
def AtIndex (root : TreeNode E) (H : ℕ) : Option ℕ → Path E → Prop
  | none, path => path = []
  | some i, path => ∃ l e r, l.length = i ∧ CursorAt root H l e r path

section Walk

variable {root : TreeNode E} {path : Path E} {i H : ℕ} {pos : Option ℕ}

/-- The key of the cursor is that of its entry. -/
theorem AtIndex.csrKeyPtr (h : AtIndex root H pos path) :
    csrKeyPtr path = pos.bind fun i => root.toList[i]? := by
  rcases pos with - | i
  · rw [show path = [] from h]
    rfl
  · obtain ⟨l, e, r, rfl, hat⟩ := h
    rw [hat.toList]
    match path, hat with
    | (p, j) :: path, hat =>
        show p.key j = (l ++ e :: r)[l.length]?
        rw [hat.2.1, List.getElem?_append_right (Nat.le_refl _), Nat.sub_self]
        rfl

/-- The cursor is invalid only past the ends. -/
theorem AtIndex.eq_nil_iff (h : AtIndex root H pos path) : path = [] ↔ pos = none := by
  rcases pos with - | i
  · exact iff_of_true h rfl
  · obtain ⟨l, e, r, -, hat⟩ := h
    refine iff_of_false (fun hnil => ?_) (Option.some_ne_none i)
    rw [hnil] at hat
    exact hat

/-- **One move** leads to the neighbour, or past an end. -/
theorem cursorMove_spec (hroot : Balanced H root) (h : AtIndex root H pos path) (m : CursorMove) :
    AtIndex root H (indexMove root.toList.length m pos) (cursorMove H m path) := by
  rcases pos with - | i
  · rw [show path = [] from h]
    cases m <;> rfl
  obtain ⟨l, e, r, rfl, hat⟩ := h
  have hlen : root.toList.length = l.length + (r.length + 1) := by
    rw [hat.toList, List.length_append, List.length_cons]
  cases m with
  | next =>
      have hnext := lsmTreeCursorNext_spec hroot hat
      rw [indexMove]
      rcases r with - | ⟨e', r⟩
      · rw [if_neg (by rw [List.length_nil] at hlen; omega)]
        exact hnext
      · rw [if_pos (by rw [List.length_cons] at hlen; omega)]
        exact ⟨l ++ [e], e', r, by rw [List.length_append, List.length_singleton], hnext⟩
  | prev =>
      obtain ⟨hfirst, hback⟩ := lsmTreeCursorPrev_spec hroot hat
      rw [indexMove]
      rcases l.eq_nil_or_concat with rfl | ⟨l', e', rfl⟩
      · rw [if_neg (by simp)]
        exact hfirst rfl
      · rw [List.concat_eq_append] at hback ⊢
        rw [if_pos (by simp)]
        exact ⟨l', e', e :: r, by simp, hback l' e' rfl⟩

/-- **A walk** visits the entries one by one. -/
theorem walk_spec (hroot : Balanced H root) (h : AtIndex root H pos path) (ms : List CursorMove) :
    AtIndex root H (ms.foldl (fun pos m => indexMove root.toList.length m pos) pos)
      (ms.foldl (fun pCsr m => cursorMove H m pCsr) path) := by
  induction ms generalizing pos path with
  | nil => exact h
  | cons m ms ih => exact ih (cursorMove_spec hroot h m)

end Walk

/-! ### Searches -/

section SeekWalk

variable {κ : Type} [LinearOrder κ] {keyOf : E → κ} {root : TreeNode E} {H : ℕ}

/-- The cursor is at entry `i`, which compares with `k` as the result says, and no other
entry is between the two. -/
structure SeekResult (keyOf : E → κ) (root : TreeNode E) (H : ℕ) (k : κ) (i : ℕ)
    (r : Path E × Ordering) : Prop where
  at_index : AtIndex root H (some i) r.1
  result : ∃ e, root.toList[i]? = some e ∧ r.2 = compare (keyOf e) k
  less : r.2 = .lt → ∀ j > i, ∀ x ∈ root.toList[j]?, k < keyOf x
  greater : r.2 = .gt → ∀ j < i, ∀ x ∈ root.toList[j]?, keyOf x < k

/-- **A search stops next to the place of the key.** -/
theorem lsmTreeCursorSeek_adjacent (hroot : Balanced H root) (hinc : Increasing keyOf root.toList)
    (k : κ) : (root.toList = [] ∧ lsmTreeCursorSeek keyOf k ⟨root, H⟩ = ([], .lt)) ∨
      ∃ i, SeekResult keyOf root H k i (lsmTreeCursorSeek keyOf k ⟨root, H⟩) := by
  by_cases hnull : root = null
  · subst hnull
    exact .inl ⟨rfl, rfl⟩
  refine .inr ?_
  rcases lsmTreeCursorSeek_spec (k := k) hroot hnull hinc with
    ⟨l, e, r, hat, hkey, hres⟩ | ⟨p, i, path, hpath, hslot⟩
  · have hget : root.toList[l.length]? = some e := by
      rw [hat.toList, List.getElem?_append_right (Nat.le_refl _), Nat.sub_self]
      rfl
    refine ⟨l.length, ⟨l, e, r, rfl, hat⟩, ⟨e, hget, ?_⟩, fun h => ?_, fun h => ?_⟩
    · rw [hres, hkey, compare_eq_iff_eq.mpr rfl]
    · rw [hres] at h
      cases h
    · rw [hres] at h
      cases h
  · obtain ⟨l, e, r, hat, hside⟩ := hslot.cursorAt hroot
    rw [← hpath] at hat
    have hlist := hat.toList
    have hget : root.toList[l.length]? = some e := by
      rw [hlist, List.getElem?_append_right (Nat.le_refl _), Nat.sub_self]
      rfl
    have hindex : AtIndex root H (some l.length) (lsmTreeCursorSeek keyOf k ⟨root, H⟩).1 :=
      ⟨l, e, r, rfl, hat⟩
    rcases hside with ⟨hres, hl, hr⟩ | ⟨hres, hl, hr⟩
    · -- the last smaller entry
      have hleft := hslot.left
      have hright := hslot.right
      rw [hl] at hleft
      rw [hr] at hright
      refine ⟨l.length, hindex, ⟨e, hget, ?_⟩, fun _ j hj x hx => ?_, fun h => ?_⟩
      · rw [hres, compare_lt_iff_lt.mpr (hleft e (by simp))]
      · rw [hlist, List.append_cons, List.getElem?_append_right (by simp; omega)] at hx
        exact hright x (List.mem_of_getElem? hx)
      · rw [hres] at h
        cases h
    · -- the first greater one
      have hleft := hslot.left
      have hright := hslot.right
      rw [hl] at hleft
      rw [hr] at hright
      refine ⟨l.length, hindex, ⟨e, hget, ?_⟩, fun h => ?_, fun _ j hj x hx => ?_⟩
      · rw [hres, compare_gt_iff_gt.mpr (hright e (by simp))]
      · rw [hres] at h
        cases h
      · rw [hlist, List.getElem?_append_left hj] at hx
        exact hleft x (List.mem_of_getElem? hx)

/-- **Search and walk.**  In a tree with entries in key order, a search stops at an entry next
to the place of the key, and any moves from there visit the entries one by one: the key of
the cursor is that of the entry that the moves lead to, and the cursor is invalid exactly
where they lead past the last or before the first entry. -/
theorem lsmTreeCursor_walk (hroot : Balanced H root) (hinc : Increasing keyOf root.toList) (k : κ) :
    (root.toList = [] ∧ lsmTreeCursorSeek keyOf k ⟨root, H⟩ = ([], .lt)) ∨
      ∃ i, SeekResult keyOf root H k i (lsmTreeCursorSeek keyOf k ⟨root, H⟩) ∧
        ∀ ms : List CursorMove,
          let pos := ms.foldl (fun pos m => indexMove root.toList.length m pos) (some i)
          let pCsr := ms.foldl (fun pCsr m => cursorMove H m pCsr)
            (lsmTreeCursorSeek keyOf k ⟨root, H⟩).1
          csrKeyPtr pCsr = (pos.bind fun i => root.toList[i]?) ∧ (pCsr = [] ↔ pos = none) := by
  rcases lsmTreeCursorSeek_adjacent hroot hinc k with hempty | ⟨i, hseek⟩
  · exact .inl hempty
  · refine .inr ⟨i, hseek, fun ms => ?_⟩
    have hwalk := walk_spec hroot hseek.at_index ms
    exact ⟨hwalk.csrKeyPtr, hwalk.eq_nil_iff⟩

/-- The tree of a root with two keys, searched for a key between them. -/
theorem lsmTreeCursor_walk_two :
    let root : TreeNode ℕ := new (some 1) (some 3) none null null null null
    (root.toList = [] ∧ lsmTreeCursorSeek id 2 ⟨root, 1⟩ = ([], .lt)) ∨
      ∃ i, SeekResult id root 1 2 i (lsmTreeCursorSeek id 2 ⟨root, 1⟩) ∧
        ∀ ms : List CursorMove,
          let pos := ms.foldl (fun pos m => indexMove root.toList.length m pos) (some i)
          let pCsr := ms.foldl (fun pCsr m => cursorMove 1 m pCsr)
            (lsmTreeCursorSeek id 2 ⟨root, 1⟩).1
          csrKeyPtr pCsr = (pos.bind fun i => root.toList[i]?) ∧ (pCsr = [] ↔ pos = none) :=
  lsmTreeCursor_walk
    (show Balanced 1 (new (some 1) (some 3) none null null null null : TreeNode ℕ) from
      ⟨rfl, fun i hi => by
        match i, hi with
        | 0, _ | 1, _ | 2, _ | 3, _ => rfl⟩)
    (show Increasing id [1, 3] by simp [Increasing]) 2

end SeekWalk

end TreeNode

end Lsm

end MoVeBench
